import ZipR.Handlers

/-! # Fetching posts

Two screens and several notifications share one list of posts.  Every call of `fetchPosts` clears
it, every delivered dictionary replaces it and runs the completion in the same callback.

* `DataStep` says what a step does to the posts, the tables and the pending fetches; the
  invariants below only look at its cases.
* `fetches_do_not_mix`: a completion sees the records of the snapshot delivered to its own call,
  one post for each key, and the list never holds anything but one delivered snapshot.
* `AllPosts.step`: every post a client holds was decoded from some answer. -/

namespace ZipR

open Reactive JsonTree

/-! ### Decoding a snapshot -/

/-- The posts are those of the records that decode, one for each key. -/
def DecodedFrom (records : List (String × Json)) (posts : List Post) : Prop :=
  ∃ decoded : List (String × Post), decoded.map Prod.snd = posts ∧
    (decoded.map Prod.fst).Nodup ∧
    ∀ key p, (key, p) ∈ decoded ↔
      ∃ v, (key, v) ∈ records ∧ (v.asObject >>= Post.initDictionary) = some p

theorem decodedFrom_decodePosts {records : List (String × Json)}
    (h : (records.map Prod.fst).Nodup) :
    DecodedFrom records (PostController.decodePosts records) := by
  refine ⟨records.filterMap fun e => (e.2.asObject >>= Post.initDictionary).map fun p => (e.1, p),
    ?_, ?_, ?_⟩
  · rw [List.map_filterMap, PostController.decodePosts]
    refine List.filterMap_congr fun e _ => ?_
    cases e.2.asObject >>= Post.initDictionary <;> rfl
  · have hsub : ((records.filterMap fun e => (e.2.asObject >>= Post.initDictionary).map
        fun p => (e.1, p)).map Prod.fst).Sublist (records.map Prod.fst) := by
      clear h
      induction records with
      | nil => exact .refl _
      | cons e records ih =>
          rw [List.filterMap_cons, List.map_cons]
          cases e.2.asObject >>= Post.initDictionary with
          | none => exact ih.cons _
          | some p => exact ih.cons_cons _
    exact h.sublist hsub
  · intro key p
    simp only [List.mem_filterMap, Option.map_eq_some_iff, Prod.mk.injEq]
    constructor
    · rintro ⟨⟨key', v⟩, he, q, hq, rfl, rfl⟩
      exact ⟨v, he, hq⟩
    · rintro ⟨v, he, hq⟩
      exact ⟨(key, v), he, p, hq, rfl, rfl⟩

namespace App

variable {P : Platform} {app app' app'' : App}

/-! ### What a step does to the data -/

/-- Some fetches may have been issued; no table and no queued block has changed. -/
structure Issued (app app' : App) : Prop where
  posts : ∀ r, (app'.controllers r).posts = [] ∨
    (app'.controllers r).posts = (app.controllers r).posts
  fetches : ∃ calls, app'.fetches = app.fetches ++ calls ∧ (calls.map FetchCall.id).Nodup ∧
    ∀ call ∈ calls, app.nextFetch ≤ call.id ∧ call.id < app'.nextFetch
  nextFetch : app.nextFetch ≤ app'.nextFetch
  localPosts : app'.messageBoard.localPosts = app.messageBoard.localPosts
  boardRows : app'.messageBoard.rows = app.messageBoard.rows
  recentActivity : app'.recentActivity = app.recentActivity
  details : app'.details = app.details
  mainQueue : app'.mainQueue = app.mainQueue
  location : app'.messageBoard.usersLat = app.messageBoard.usersLat ∧
    app'.messageBoard.usersLong = app.messageBoard.usersLong

namespace Issued

theorem refl (app : App) : Issued app app :=
  ⟨fun _ => .inr rfl, ⟨[], by simp, List.nodup_nil, fun _ h => by cases h⟩, le_rfl, rfl, rfl, rfl,
    rfl, rfl, rfl, rfl⟩

theorem trans (h : Issued app app') (h' : Issued app' app'') : Issued app app'' where
  posts r := by
    rcases h'.posts r with hr | hr
    · exact .inl hr
    · rw [hr]
      exact h.posts r
  fetches := by
    obtain ⟨calls, hc, hn, hb⟩ := h.fetches
    obtain ⟨calls', hc', hn', hb'⟩ := h'.fetches
    have hle := h.nextFetch
    have hle' := h'.nextFetch
    refine ⟨calls ++ calls', by rw [hc', hc, List.append_assoc], ?_, ?_⟩
    · rw [List.map_append]
      refine List.nodup_append'.mpr ⟨hn, hn', fun id hid hid' => ?_⟩
      obtain ⟨call, hcall, rfl⟩ := List.mem_map.mp hid
      obtain ⟨call', hcall', he⟩ := List.mem_map.mp hid'
      have hlt := (hb call hcall).2
      have hge := (hb' call' hcall').1
      omega
    · intro call hcall
      rcases List.mem_append.mp hcall with hcall | hcall
      · exact ⟨(hb call hcall).1, by have := (hb call hcall).2; omega⟩
      · exact ⟨by have := (hb' call hcall).1; omega, (hb' call hcall).2⟩
  nextFetch := h.nextFetch.trans h'.nextFetch
  localPosts := h'.localPosts.trans h.localPosts
  boardRows := h'.boardRows.trans h.boardRows
  recentActivity := h'.recentActivity.trans h.recentActivity
  details := h'.details.trans h.details
  mainQueue := h'.mainQueue.trans h.mainQueue
  location := ⟨h'.location.1.trans h.location.1, h'.location.2.trans h.location.2⟩

theorem fetchPosts (app : App) (r : Ref) (completion : FetchCompletion) :
    Issued app (app.fetchPosts r completion) where
  posts r' := by
    by_cases h : r' = r
    · subst h
      left
      simp [App.fetchPosts, setController, PostController.fetchPosts]
    · right
      simp [App.fetchPosts, setController, h]
  fetches := by
    refine ⟨[⟨app.nextFetch, r, completion⟩], rfl, List.nodup_singleton _, fun call hcall => ?_⟩
    obtain rfl := List.mem_singleton.mp hcall
    exact ⟨le_rfl, Nat.lt_succ_self _⟩
  nextFetch := Nat.le_succ _
  localPosts := rfl
  boardRows := rfl
  recentActivity := rfl
  details := rfl
  mainQueue := rfl
  location := ⟨rfl, rfl⟩

theorem post (app : App) (name : NotificationName) : Issued app (app.post name) :=
  post_induction (Q := Issued app) name (.refl app) fun _ r h _ => h.trans (.fetchPosts _ r _)

/-- A change of neither posts nor tables nor fetches. -/
theorem of_eq (hposts : ∀ r, (app'.controllers r).posts = [] ∨
      (app'.controllers r).posts = (app.controllers r).posts)
    (hfetches : app'.fetches = app.fetches) (hnext : app'.nextFetch = app.nextFetch)
    (hlocal : app'.messageBoard.localPosts = app.messageBoard.localPosts)
    (hrows : app'.messageBoard.rows = app.messageBoard.rows)
    (hactivity : app'.recentActivity = app.recentActivity) (hdetails : app'.details = app.details)
    (hqueue : app'.mainQueue = app.mainQueue)
    (hlocation : app'.messageBoard.usersLat = app.messageBoard.usersLat ∧
      app'.messageBoard.usersLong = app.messageBoard.usersLong) : Issued app app' :=
  ⟨hposts, ⟨[], by simp [hfetches], List.nodup_nil, fun _ h => by cases h⟩, hnext.ge, hlocal, hrows,
    hactivity, hdetails, hqueue, hlocation⟩

theorem setUser (app : App) (controller : Option Ref) (user : Option CurrentUser) :
    Issued app (app.setUser controller user) := by
  refine .of_eq (fun r => .inr ?_) rfl rfl rfl rfl rfl rfl rfl ⟨rfl, rfl⟩
  simp only [App.setUser]
  split <;> rfl

theorem new (app : App) (r : Ref) : Issued app (app.setController r .new) := by
  refine .of_eq (fun r' => ?_) rfl rfl rfl rfl rfl rfl rfl ⟨rfl, rfl⟩
  by_cases h : r' = r
  · subst h
    left
    simp [PostController.new]
  · right
    rw [setController_ne _ _ h]

theorem locationReply (app : App) (request : ℕ) (coordinate : Option Coordinate) :
    Issued app (app.locationReply P request coordinate) := by
  unfold App.locationReply
  split
  · exact .refl app
  · have hrest : Issued app
        { app with locationRequests := app.locationRequests.eraseIdx request } :=
      .of_eq (fun _ => .inr rfl) rfl rfl rfl rfl rfl rfl rfl ⟨rfl, rfl⟩
    cases coordinate with
    | none => exact hrest
    | some coordinate => exact hrest.trans ((setUser _ _ _).trans (.post _ _))

end Issued

/-- What the events do to the posts, the tables and the fetches. -/
inductive DataStep (P : Platform) (app : App) : Event → App → Prop
  | launch (signOutError : Bool) : DataStep P app (.launch signOutError) (app.launch signOutError)
  | issue {e : Event} {app' : App} : Issued app app' → DataStep P app e app'
  | drop {id : ℕ} {answer : Answer} : (∀ records, answer ≠ .value (.object records)) →
      DataStep P app (.fetchAnswer id answer) (app.removeFetch id)
  | complete {call : FetchCall} {records : List (String × Json)} {app' : App} :
      call ∈ app.fetches →
      ((app.setPosts call.postController (PostController.decodePosts records)).removeFetch
        call.id).complete P call = .ok app' →
      DataStep P app (.fetchAnswer call.id (.value (.object records))) app'
  | block : DataStep P app .mainQueueBlock app.mainQueueBlock
  | delete {row : ℕ} {p : Post} : app.recentActivity.usersPosts[row]? = some p →
      DataStep P app (.commitDelete row)
        ((app.removeRows P p.id).post .Deletion).reloadRecentActivity
  | select {row : ℕ} {p : Post} : app.messageBoard.localPosts[row]? = some p →
      DataStep P app (.selectRow row)
        { app with details := app.details ++ [⟨app.messageBoard.postController, some p⟩] }

theorem dataStep {e : Event} {os : List Output} (hs : (machine P).Step app e os app') :
    DataStep P app e app' := by
  obtain ⟨hen, hs⟩ := hs
  cases e with
  | launch signOutError =>
      obtain ⟨rfl, -⟩ := Prod.mk.inj (Except.ok.inj hs)
      exact .launch _
  | tabBarDidAppear =>
      obtain ⟨_, _, rfl, -⟩ := tabBarDidAppear_cases hs
      exact .issue (.of_eq (fun _ => .inr rfl) rfl rfl rfl rfl rfl rfl rfl ⟨rfl, rfl⟩)
  | messageBoardDidLoad | messageBoardDidAppear =>
      obtain ⟨rfl, -⟩ := Prod.mk.inj (Except.ok.inj hs)
      exact .issue (.of_eq (fun _ => .inr rfl) rfl rfl rfl rfl rfl rfl rfl ⟨rfl, rfl⟩)
  | recentActivityWillAppear =>
      rcases recentActivityWillAppear_cases hs with rfl | ⟨_, -, rfl⟩
      · exact .issue (.refl _)
      · exact .issue (.fetchPosts _ _ _)
  | signOutTapped signOutError =>
      rcases signOutTapped_cases hs with ⟨-, rfl⟩ | ⟨-, rfl⟩
      · exact .issue (.refl _)
      · have hout : Issued app { app with currentUser := none } :=
          .of_eq (fun _ => .inr rfl) rfl rfl rfl rfl rfl rfl rfl ⟨rfl, rfl⟩
        have huser := hout.trans (.setUser _ app.profile.postController none)
        have hnew := huser.trans (.new _ app.nextRef)
        exact .issue (hnew.trans (.of_eq (fun _ => .inr rfl) rfl rfl rfl rfl rfl rfl rfl ⟨rfl, rfl⟩))
  | didSignIn login account =>
      obtain ⟨_, rfl, -⟩ := didSignIn_cases hs
      exact .issue (.of_eq (fun _ => .inr rfl) rfl rfl rfl rfl rfl rfl rfl ⟨rfl, rfl⟩)
  | locationReply request coordinate =>
      obtain ⟨rfl, -⟩ := Prod.mk.inj (Except.ok.inj hs)
      exact .issue (.locationReply _ _ _)
  | fetchAnswer id answer =>
      obtain ⟨call, hcall, rfl, ⟨hd, rfl, -⟩ | ⟨records, rfl, hc, -⟩⟩ := fetchAnswer_cases hen.1 hs
      · exact .drop hd
      · exact .complete hcall hc
  | mainQueueBlock =>
      obtain ⟨rfl, -⟩ := Prod.mk.inj (Except.ok.inj hs)
      exact .block
  | commitDelete row =>
      obtain ⟨p, hp, rfl, -⟩ := commitDelete_cases hs
      exact .delete hp
  | selectRow row =>
      obtain ⟨p, hp, rfl, -⟩ := selectRow_cases hs
      exact .select hp
  | postButtonTapped form now uuid =>
      rcases postButtonTapped_cases hs with ⟨rfl, -⟩ | ⟨_, _, -, -, rfl, -⟩
      · exact .issue (.refl _)
      · exact .issue (.fetchPosts _ _ _)
  | postComment detail commentText uuid =>
      obtain ⟨rfl, -⟩ := postComment_cases hs
      exact .issue (.refl _)

theorem complete_controllers {call : FetchCall} (h : app.complete P call = .ok app') :
    app'.controllers = app.controllers ∧ app'.fetches = app.fetches ∧
      app'.nextFetch = app.nextFetch := by
  rcases complete_cases h with ⟨_, _, _, -, -, rfl⟩ | ⟨_, -, -, rfl⟩ | ⟨_, -, -, rfl⟩ <;>
    exact ⟨rfl, rfl, rfl⟩

/-! ### Pending fetches -/

/-- Pending fetches are numbered apart, below the next number. -/
structure Numbered (app : App) : Prop where
  nodup : (app.fetches.map FetchCall.id).Nodup
  below : ∀ call ∈ app.fetches, call.id < app.nextFetch

theorem Numbered.issued (h : app.Numbered) (hi : Issued app app') : app'.Numbered := by
  obtain ⟨calls, hc, hn, hb⟩ := hi.fetches
  constructor
  · rw [hc, List.map_append]
    refine List.nodup_append'.mpr ⟨h.nodup, hn, fun id hid hid' => ?_⟩
    obtain ⟨call, hcall, rfl⟩ := List.mem_map.mp hid
    obtain ⟨call', hcall', he⟩ := List.mem_map.mp hid'
    have hlt := h.below call hcall
    have hge := (hb call' hcall').1
    omega
  · intro call hcall
    rw [hc] at hcall
    rcases List.mem_append.mp hcall with hcall | hcall
    · exact lt_of_lt_of_le (h.below call hcall) hi.nextFetch
    · exact (hb call hcall).2

theorem Numbered.removeFetch (h : app.Numbered) (id : ℕ) : (app.removeFetch id).Numbered where
  nodup := h.nodup.sublist (List.filter_sublist.map _)
  below call hcall := h.below call (List.mem_filter.mp hcall).1

theorem Numbered.step (h : app.Numbered) {e : Event} {os : List Output}
    (hs : (machine P).Step app e os app') : app'.Numbered := by
  cases dataStep hs with
  | launch signOutError => exact ⟨List.nodup_nil, fun _ hm => by cases hm⟩
  | issue hi => exact h.issued hi
  | drop _ => exact h.removeFetch _
  | complete _ hc =>
      obtain ⟨-, hf, hn⟩ := complete_controllers hc
      have hr := h.removeFetch
      exact ⟨by rw [hf]; exact (hr _).nodup, by rw [hf, hn]; exact (hr _).below⟩
  | block =>
      obtain ⟨_, _, _, hblock, -⟩ := mainQueueBlock_eq app
      rw [hblock]
      exact ⟨h.nodup, h.below⟩
  | @delete row p hp =>
      have hremoved : (app.removeRows P p.id).Numbered := ⟨h.nodup, h.below⟩
      have hpost := hremoved.issued (.post _ .Deletion)
      exact ⟨hpost.nodup, hpost.below⟩
  | select _ => exact ⟨h.nodup, h.below⟩

theorem numbered_of_reachable (h : (machine P).Reachable app) : app.Numbered := by
  refine h.invariant ?_ fun _ _ _ _ hn hs => hn.step hs
  rintro _ ⟨flag, account, signOutError, rfl⟩
  exact ⟨List.nodup_nil, fun _ hm => by cases hm⟩

/-- The call an answer meets is the one it is for. -/
theorem Numbered.find (h : app.Numbered) {call : FetchCall} (hc : call ∈ app.fetches) :
    (app.fetches.find? fun c => c.id = call.id) = some call := by
  obtain ⟨call', hf⟩ : ∃ call', (app.fetches.find? fun c => c.id = call.id) = some call' := by
    cases hf : app.fetches.find? fun c => c.id = call.id with
    | some call' => exact ⟨call', rfl⟩
    | none =>
        have hne := List.find?_eq_none.mp hf call hc
        simp at hne
  have hid : call'.id = call.id := by simpa using List.find?_some hf
  have hmem := List.mem_of_find?_eq_some hf
  rw [hf, List.inj_on_of_nodup_map h.nodup hmem hc hid]

/-- An answer to a pending call drops that call, or fills its controller and runs its completion. -/
theorem Numbered.answer_cases (h : app.Numbered) {call : FetchCall} (hcall : call ∈ app.fetches)
    {answer : Answer} {os : List Output}
    (hs : (machine P).Step app (.fetchAnswer call.id answer) os app') :
    ((∀ records, answer ≠ .value (.object records)) ∧ app' = app.removeFetch call.id ∧ os = []) ∨
      ∃ records, answer = .value (.object records) ∧
        ((app.setPosts call.postController (PostController.decodePosts records)).removeFetch
          call.id).complete P call = .ok app' ∧ os = [.completed call] := by
  obtain ⟨call', hcall', hid, hcases⟩ := fetchAnswer_cases ⟨call, hcall, rfl⟩ hs.2
  obtain rfl := List.inj_on_of_nodup_map h.nodup hcall' hcall hid
  exact hcases

/-- What an answer with a dictionary leaves in the controller of its call. -/
theorem fetchAnswer_posts (hn : app.Numbered) {call : FetchCall} {records : List (String × Json)}
    {os : List Output}
    (hs : (machine P).Step app (.fetchAnswer call.id (.value (.object records))) os app')
    (hcall : call ∈ app.fetches) : (app'.controllers call.postController).posts =
      PostController.decodePosts records := by
  rcases hn.answer_cases hcall hs with ⟨hd, -, -⟩ | ⟨records', he, hc, -⟩
  · exact absurd rfl (hd records)
  · obtain rfl := Json.object.inj (Answer.value.inj he)
    rw [(complete_controllers hc).1]
    simp only [removeFetch_controllers, setPosts_posts]

/-! ### One snapshot at a time -/

/-- The posts of a controller are those of one of the delivered snapshots, or there are none. -/
def OneSnapshot (is : List Event) (posts : List Post) : Prop :=
  posts = [] ∨ ∃ id records, .fetchAnswer id (.value (.object records)) ∈ is ∧
    DecodedFrom records posts

theorem oneSnapshot {s₀ : App} {is : List Event} {os : List Output} (h₀ : (machine P).start s₀)
    (h : (machine P).Run s₀ is os app) (r : Ref) : OneSnapshot is (app.controllers r).posts := by
  refine h.history (P := fun is _ app => ∀ r, OneSnapshot is (app.controllers r).posts) ?_ ?_ r
  · obtain ⟨flag, account, signOutError, rfl⟩ := h₀
    exact fun _ => .inl rfl
  · intro is os app e o app' _ ih hs r
    have hkeep : ∀ posts, OneSnapshot is posts → OneSnapshot (is ++ [e]) posts := by
      rintro posts (rfl | ⟨id, records, hm, hd⟩)
      · exact .inl rfl
      · exact .inr ⟨id, records, List.mem_append_left _ hm, hd⟩
    have hissued : ∀ {app app' : App}, Issued app app' →
        OneSnapshot is (app.controllers r).posts →
        OneSnapshot (is ++ [e]) (app'.controllers r).posts := by
      intro app app' hi hone
      rcases hi.posts r with hr | hr
      · rw [hr]
        exact .inl rfl
      · rw [hr]
        exact hkeep _ hone
    cases dataStep hs with
    | launch _ => exact .inl rfl
    | issue hi => exact hissued hi (ih r)
    | drop _ => exact hkeep _ (ih r)
    | @complete call records _ hcall hc =>
        rw [(complete_controllers hc).1]
        by_cases hr : r = call.postController
        · subst hr
          refine .inr ⟨call.id, records, by simp, ?_⟩
          simp only [removeFetch_controllers, setPosts_posts]
          exact decodedFrom_decodePosts hs.1.2
        · simp only [removeFetch_controllers, setPosts_posts_ne hr]
          exact hkeep _ (ih r)
    | block =>
        obtain ⟨_, _, _, hblock, -⟩ := mainQueueBlock_eq app
        rw [hblock]
        exact hkeep _ (ih r)
    | @delete row p _ =>
        have hpost := hissued (Issued.post (app.removeRows P p.id) .Deletion) (ih r)
        exact hpost
    | select _ => exact hkeep _ (ih r)

/-- **Overlapping fetches neither mix nor duplicate.**  In every reachable state, when a pending
call is answered and its completion is run, its controller holds the records of the answer that
decode, one for each key; the answer is delivered to that very call; and at all times the posts
of a controller are empty or the decode of a single delivered snapshot. -/
theorem fetches_do_not_mix {s₀ : App} {is : List Event} {os : List Output}
    (h₀ : (machine P).start s₀) (h : (machine P).Run s₀ is os app) :
    (∀ call ∈ app.fetches, ∀ answer, answer.Keyed →
      (app.fetches.find? fun c => c.id = call.id) = some call ∧
      ((app.answered call answer).2 ≠ [] → ∃ records, answer = .value (.object records) ∧
        DecodedFrom records
          ((app.answered call answer).1.controllers call.postController).posts)) ∧
    (∀ e o app' call, (machine P).Step app e o app' → .completed call ∈ o →
      call ∈ app.fetches ∧ ∃ records, e = .fetchAnswer call.id (.value (.object records)) ∧
        DecodedFrom records (app'.controllers call.postController).posts) ∧
    ∀ r, OneSnapshot is (app.controllers r).posts := by
  have hn := numbered_of_reachable ⟨s₀, is, os, h₀, h⟩
  refine ⟨fun call hcall answer hkeyed => ⟨hn.find hcall, fun hne => ?_⟩, ?_, oneSnapshot h₀ h⟩
  · by_cases hd : ∃ records, answer = .value (.object records)
    · obtain ⟨records, rfl⟩ := hd
      refine ⟨records, rfl, ?_⟩
      simp only [answered_dictionary, removeFetch_controllers, setPosts_posts]
      exact decodedFrom_decodePosts hkeyed
    · rw [answered_dropped fun records he => hd ⟨records, he⟩] at hne
      exact absurd rfl hne
  · intro e o app' call hs ho
    have hmem : call ∈ completions o := List.mem_filterMap.mpr ⟨_, ho, rfl⟩
    rcases completions_step hs with hnil | ⟨call', hcall, records, rfl, hone⟩
    · rw [hnil] at hmem
      cases hmem
    · rw [hone] at hmem
      obtain rfl := List.mem_singleton.mp hmem
      refine ⟨hcall, records, rfl, ?_⟩
      rw [fetchAnswer_posts hn hs hcall]
      exact decodedFrom_decodePosts hs.1.2

/-- A snapshot with one post. -/
def sampleRecords : List (String × Json) :=
  [("6F96-8B86", (NewPost.post "6F96-8B86"
    ⟨"A", "Hello", "First post", ["news"], "37.5", "-122.25", "1580774400.0"⟩).record)]

/-- The later of two outstanding fetches is answered first. -/
theorem fetches_do_not_mix_sample : ∃ os s,
    (machine .decimal).Run firstLaunch [.recentActivityWillAppear, .recentActivityWillAppear] os s ∧
    ⟨0, 0, .viewWillAppear⟩ ∈ s.fetches ∧
    DecodedFrom sampleRecords ((s.answered ⟨1, 0, .viewWillAppear⟩
      (.value (.object sampleRecords))).1.controllers 0).posts := by
  obtain ⟨os, s, hr, h₀, h₁⟩ := Machine.Run.exists_of_exec (M := machine .decimal)
    (s := firstLaunch) (l := [.recentActivityWillAppear, .recentActivityWillAppear])
    (Q := fun s _ => ⟨0, 0, .viewWillAppear⟩ ∈ s.fetches ∧ ⟨1, 0, .viewWillAppear⟩ ∈ s.fetches)
    (by decide +kernel) (by decide +kernel)
  obtain ⟨-, hd⟩ := (fetches_do_not_mix (start_firstLaunch _) hr).1 _ h₁
    (.value (.object sampleRecords)) (by decide +kernel)
  obtain ⟨records, he, hd⟩ := hd (by rw [answered_dictionary]; simp)
  cases he
  exact ⟨os, s, hr, h₀, hd⟩

/-! ### Where posts come from -/

/-- Every post a client holds or shows has the property. -/
structure AllPosts (Q : Post → Prop) (app : App) : Prop where
  posts : ∀ r, ∀ p ∈ (app.controllers r).posts, Q p
  localPosts : ∀ p ∈ app.messageBoard.localPosts, Q p
  boardRows : ∀ p ∈ app.messageBoard.rows, Q p
  usersPosts : ∀ p ∈ app.recentActivity.usersPosts, Q p
  activityRows : ∀ p ∈ app.recentActivity.rows, Q p
  details : ∀ d ∈ app.details, ∀ p, d.post = some p → Q p

theorem allPosts_launch (Q : Post → Prop) (app : App) (signOutError : Bool) :
    (app.launch signOutError).AllPosts Q := by
  constructor <;> intros <;> contradiction

theorem AllPosts.imp {Q R : Post → Prop} (h : app.AllPosts Q) (hQ : ∀ p, Q p → R p) :
    app.AllPosts R where
  posts r p hp := hQ p (h.posts r p hp)
  localPosts p hp := hQ p (h.localPosts p hp)
  boardRows p hp := hQ p (h.boardRows p hp)
  usersPosts p hp := hQ p (h.usersPosts p hp)
  activityRows p hp := hQ p (h.activityRows p hp)
  details d hd p hp := hQ p (h.details d hd p hp)

theorem AllPosts.issued {Q : Post → Prop} (h : app.AllPosts Q) (hi : Issued app app') :
    app'.AllPosts Q where
  posts r p hp := by
    rcases hi.posts r with hr | hr
    · rw [hr] at hp
      cases hp
    · exact h.posts r p (hr ▸ hp)
  localPosts := by rw [hi.localPosts]; exact h.localPosts
  boardRows := by rw [hi.boardRows]; exact h.boardRows
  usersPosts := by rw [hi.recentActivity]; exact h.usersPosts
  activityRows := by rw [hi.recentActivity]; exact h.activityRows
  details := by rw [hi.details]; exact h.details

theorem parsePostsAgain_subset {localPosts : List Post}
    (h : app.parsePostsAgain P = .ok localPosts) :
    ∀ p ∈ localPosts, ∃ r, app.messageBoard.postController = some r ∧
      p ∈ (app.controllers r).posts := by
  unfold parsePostsAgain at h
  intro p hp
  cases hr : app.messageBoard.postController with
  | none =>
      rw [hr] at h
      obtain rfl := Except.ok.inj h
      cases hp
  | some r =>
      rw [hr] at h
      exact ⟨r, rfl, parsePosts_subset h p hp⟩

theorem AllPosts.complete {Q : Post → Prop} (h : app.AllPosts Q) {call : FetchCall}
    (hc : app.complete P call = .ok app') : app'.AllPosts Q := by
  rcases complete_cases hc with ⟨_, _, localPosts, -, hl, rfl⟩ | ⟨localPosts, -, hl, rfl⟩ |
    ⟨usersPosts, -, hu, rfl⟩
  · exact ⟨h.posts, fun p hp => h.posts _ p (parsePosts_subset hl p hp), h.boardRows, h.usersPosts,
      h.activityRows, h.details⟩
  · refine ⟨h.posts, fun p hp => ?_, h.boardRows, h.usersPosts, h.activityRows, h.details⟩
    obtain ⟨r, -, hr⟩ := parsePostsAgain_subset hl p hp
    exact h.posts r p hr
  · refine ⟨h.posts, h.localPosts, h.boardRows, fun p hp => ?_, h.activityRows, h.details⟩
    have hmem := (filterPostsByUserandDate_perm hu).mem_iff.mp hp
    exact h.posts _ p (List.mem_filter.mp hmem).1

/-- **Posts come from answers**: what holds of the posts a client has and of those of the answer
it gets holds of the posts it has next. -/
theorem AllPosts.step {Q : Post → Prop} (h : app.AllPosts Q) {e : Event} {os : List Output}
    (hs : (machine P).Step app e os app')
    (hQ : ∀ id records, e = .fetchAnswer id (.value (.object records)) →
      ∀ p ∈ PostController.decodePosts records, Q p) : app'.AllPosts Q := by
  cases dataStep hs with
  | launch _ => exact allPosts_launch ..
  | issue hi => exact h.issued hi
  | drop _ =>
      exact ⟨h.posts, h.localPosts, h.boardRows, h.usersPosts, h.activityRows, h.details⟩
  | @complete call records _ _ hc =>
      have hfilled : ((app.setPosts call.postController
          (PostController.decodePosts records)).removeFetch call.id).AllPosts Q := by
        refine ⟨fun r p hp => ?_, h.localPosts, h.boardRows, h.usersPosts, h.activityRows,
          h.details⟩
        by_cases hr : r = call.postController
        · subst hr
          simp only [removeFetch_controllers, setPosts_posts] at hp
          exact hQ _ _ rfl p hp
        · simp only [removeFetch_controllers, setPosts_posts_ne hr] at hp
          exact h.posts r p hp
      exact hfilled.complete hc
  | block =>
      obtain ⟨boardRows, activityRows, _, hblock, hboard, hactivity⟩ := mainQueueBlock_eq app
      have hboardRows : ∀ p ∈ boardRows, Q p := by
        rcases hboard with rfl | rfl
        · exact h.boardRows
        · exact h.localPosts
      have hactivityRows : ∀ p ∈ activityRows, Q p := by
        rcases hactivity with rfl | rfl
        · exact h.activityRows
        · exact h.usersPosts
      rw [hblock]
      exact ⟨h.posts, h.localPosts, hboardRows, h.usersPosts, hactivityRows, h.details⟩
  | @delete row p _ =>
      have hremoved : (app.removeRows P p.id).AllPosts Q :=
        ⟨h.posts, h.localPosts, h.boardRows, fun q hq => h.usersPosts q (List.mem_filter.mp hq).1,
          h.activityRows, h.details⟩
      have hpost := hremoved.issued (.post _ .Deletion)
      exact ⟨hpost.posts, hpost.localPosts, hpost.boardRows, hpost.usersPosts, hpost.usersPosts,
        hpost.details⟩
  | @select row p hp =>
      refine ⟨h.posts, h.localPosts, h.boardRows, h.usersPosts, h.activityRows, ?_⟩
      intro d hd q hq
      rcases List.mem_append.mp hd with hd | hd
      · exact h.details d hd q hq
      · obtain rfl := List.mem_singleton.mp hd
        obtain rfl := Option.some.inj hq
        exact h.localPosts _ (List.mem_of_getElem? hp)

end App
end ZipR
