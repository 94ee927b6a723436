import ZipR.World

/-! # Refreshing after a deletion

A swipe on the recent-activity table deletes a post and posts a `Deletion` notification; the
message board fetches again and, in the completion of the fetch, replaces `localPosts`.

* `completed_once_iff`: an answered fetch runs its completion once if and only if the answer is a
  dictionary; null, any other value and a cancellation are dropped.
* `absent_run`: once the board is rid of a deleted post, it stays rid of it.
* `refresh_drops_deleted_iff`: so the refresh takes the deleted post off the screen if and only if
  it is answered with a dictionary.  When the last post is deleted the answer is null, and the post
  stays (`last_post_stays`). -/

namespace ZipR

open Reactive JsonTree App

namespace App

variable {P : Platform} {app app' : App}

/-! ### Completions -/

/-- Completed fetches are not pending any more. -/
structure Completed (os : List Output) (app : App) : Prop where
  below : ∀ call ∈ completions os, call.id < app.nextFetch
  apart : ∀ call ∈ completions os, ∀ pending ∈ app.fetches, pending.id ≠ call.id

theorem Completed.issued {os : List Output} (h : Completed os app) (hi : Issued app app') :
    Completed os app' where
  below call hcall := lt_of_lt_of_le (h.below call hcall) hi.nextFetch
  apart call hcall pending hp := by
    obtain ⟨calls, hc, -, hb⟩ := hi.fetches
    rw [hc] at hp
    rcases List.mem_append.mp hp with hp | hp
    · exact h.apart call hcall pending hp
    · have hlt := h.below call hcall
      have hge := (hb pending hp).1
      omega

theorem Completed.step {os o : List Output} (h : Completed os app) (hn : app.Numbered) {e : Event}
    (hs : (machine P).Step app e o app') : Completed (os ++ o) app' := by
  have hold : Completed os app' := by
    cases dataStep hs with
    | launch _ => exact ⟨h.below, fun _ _ _ hp => by cases hp⟩
    | issue hi => exact h.issued hi
    | drop _ => exact ⟨h.below, fun call hcall p hp => h.apart call hcall p (List.mem_filter.mp hp).1⟩
    | complete _ hc =>
        obtain ⟨-, hf, hnext⟩ := complete_controllers hc
        refine ⟨by rw [hnext]; exact h.below, fun call hcall p hp => ?_⟩
        rw [hf] at hp
        exact h.apart call hcall p (List.mem_filter.mp hp).1
    | block =>
        obtain ⟨_, _, _, hblock, -⟩ := mainQueueBlock_eq app
        rw [hblock]
        exact ⟨h.below, h.apart⟩
    | @delete row p _ =>
        have hremoved : Completed os (app.removeRows P p.id) := ⟨h.below, h.apart⟩
        have hpost := hremoved.issued (.post _ .Deletion)
        exact ⟨hpost.below, hpost.apart⟩
    | select _ => exact ⟨h.below, h.apart⟩
  rcases completions_step hs with hnil | ⟨call, hcall, records, rfl, hone⟩
  · constructor <;> rw [completions_append, hnil, List.append_nil]
    · exact hold.below
    · exact hold.apart
  · have hnew : call.id < app'.nextFetch ∧ ∀ pending ∈ app'.fetches, pending.id ≠ call.id := by
      rcases hn.answer_cases hcall hs with ⟨hd, -, -⟩ | ⟨_, -, hc, -⟩
      · exact absurd rfl (hd records)
      · obtain ⟨-, hf, hnext⟩ := complete_controllers hc
        rw [hf, hnext]
        exact ⟨hn.below call hcall, fun p hp => by simpa using (List.mem_filter.mp hp).2⟩
    constructor <;> rw [completions_append, hone] <;> intro call' hcall'
    · rcases List.mem_append.mp hcall' with hcall' | hcall'
      · exact hold.below call' hcall'
      · exact List.mem_singleton.mp hcall' ▸ hnew.1
    · rcases List.mem_append.mp hcall' with hcall' | hcall'
      · exact hold.apart call' hcall'
      · exact List.mem_singleton.mp hcall' ▸ hnew.2

theorem completed_of_run {s₀ : App} {is : List Event} {os : List Output} (h₀ : (machine P).start s₀)
    (h : (machine P).Run s₀ is os app) : Completed os app := by
  refine h.history (P := fun _ os app => Completed os app) ?_ ?_
  · constructor <;> intro _ hm <;> cases hm
  · intro is os app e o app' hr ih hs
    exact ih.step (numbered_of_reachable ⟨s₀, is, os, h₀, hr⟩) hs

/-- **An answered fetch completes once if and only if the answer is a dictionary.** -/
theorem completed_once_iff {s₀ : App} {is : List Event} {os : List Output}
    (h₀ : (machine P).start s₀) (h : (machine P).Run s₀ is os app) {call : FetchCall}
    (hcall : call ∈ app.fetches) {answer : Answer} {o : List Output}
    (hs : (machine P).Step app (.fetchAnswer call.id answer) o app') :
    (completions (os ++ o)).count call = 1 ↔ ∃ records, answer = .value (.object records) := by
  have hn := numbered_of_reachable ⟨s₀, is, os, h₀, h⟩
  have hbefore : (completions os).count call = 0 := by
    rw [List.count_eq_zero]
    exact fun hm => (completed_of_run h₀ h).apart call hm call hcall rfl
  rw [completions_append, List.count_append, hbefore, Nat.zero_add]
  rcases hn.answer_cases hcall hs with ⟨hd, -, rfl⟩ | ⟨records, rfl, -, rfl⟩
  · refine iff_of_false (by simp [completions]) ?_
    rintro ⟨records, rfl⟩
    exact hd records rfl
  · exact iff_of_true (by simp [completions]) ⟨records, rfl⟩

/-! ### What the board shows -/

/-- No post of the board has this id. -/
def Absent (app : App) (id : String) : Prop :=
  ∀ p ∈ app.messageBoard.localPosts, p.id ≠ some id

theorem complete_localPosts (hw : app.Wired) {call : FetchCall}
    (hcall : call.postController = app.tabBar.postController)
    (hc : app.complete P call = .ok app') :
    app'.messageBoard.localPosts = app.messageBoard.localPosts ∨
      ∀ p ∈ app'.messageBoard.localPosts, p ∈ (app.controllers call.postController).posts := by
  rcases complete_cases hc with ⟨_, _, localPosts, -, hl, rfl⟩ | ⟨localPosts, -, hl, rfl⟩ |
    ⟨_, -, -, rfl⟩
  · exact .inr fun p hp => parsePosts_subset hl p hp
  · right
    intro p hp
    obtain ⟨r, hr, hmem⟩ := parsePostsAgain_subset hl p hp
    obtain rfl := Option.some.inj (hw.messageBoard.symm.trans hr)
    exact hcall ▸ hmem
  · exact .inl rfl

/-- The board keeps its posts, or takes them from the answer of the step. -/
theorem localPosts_step (hw : app.Wired) {e : Event} {os : List Output}
    (hs : (machine P).Step app e os app') :
    (∀ p ∈ app'.messageBoard.localPosts, p ∈ app.messageBoard.localPosts) ∨
      ∃ id records, e = .fetchAnswer id (.value (.object records)) ∧
        ∀ p ∈ app'.messageBoard.localPosts, p ∈ PostController.decodePosts records := by
  cases dataStep hs with
  | launch _ => exact .inl fun _ hp => by cases hp
  | issue hi => exact .inl fun p hp => hi.localPosts ▸ hp
  | drop _ => exact .inl fun _ hp => hp
  | @complete call records _ hcall hc =>
      have hfilled : ((app.setPosts call.postController
          (PostController.decodePosts records)).removeFetch call.id).Wired :=
        ⟨hw.messageBoard, hw.recentActivity, hw.profile, hw.details,
          fun c hm => hw.fetches c (List.mem_filter.mp hm).1, hw.allocated⟩
      rcases complete_localPosts hfilled (hw.fetches call hcall) hc with he | hsub
      · exact .inl fun p hp => he ▸ hp
      · refine .inr ⟨call.id, records, rfl, fun p hp => ?_⟩
        have hmem := hsub p hp
        simpa only [removeFetch_controllers, setPosts_posts] using hmem
  | block =>
      obtain ⟨_, _, _, hblock, -⟩ := mainQueueBlock_eq app
      rw [hblock]
      exact .inl fun _ hp => hp
  | @delete row p _ =>
      exact .inl fun q hq => (Issued.post (app.removeRows P p.id) .Deletion).localPosts ▸ hq
  | select _ => exact .inl fun _ hp => hp

/-- What the answer to a refresh leaves on the board. -/
theorem refresh_localPosts (hn : app.Numbered) {call : FetchCall}
    (hcall : call ∈ app.fetches) (hcompletion : call.completion = .updateViews) {answer : Answer}
    {os : List Output} (hs : (machine P).Step app (.fetchAnswer call.id answer) os app') :
    (∃ records, answer = .value (.object records) ∧
      ∀ p ∈ app'.messageBoard.localPosts, p ∈ PostController.decodePosts records) ∨
    ((∀ records, answer ≠ .value (.object records)) ∧
      app'.messageBoard.localPosts = app.messageBoard.localPosts) := by
  rcases hn.answer_cases hcall hs with ⟨hd, rfl, -⟩ | ⟨records, rfl, hc, -⟩
  · exact .inr ⟨hd, rfl⟩
  · refine .inl ⟨records, rfl, fun p hp => ?_⟩
    rcases complete_cases hc with ⟨_, _, localPosts, -, hl, rfl⟩ | ⟨_, hx, -, rfl⟩ | ⟨_, hx, -, rfl⟩
    · have hmem := parsePosts_subset hl p hp
      simpa only [removeFetch_controllers, setPosts_posts] using hmem
    · rw [hcompletion] at hx
      cases hx
    · rw [hcompletion] at hx
      cases hx

/-- The fetches a deletion issues. -/
theorem commitDelete_fetches (hw : app.Wired) {row : ℕ} {os : List Output}
    (hs : (machine P).Step app (.commitDelete row) os app') : app'.fetches = app.fetches ++
      (List.range (app.observers.count .Deletion)).map fun k =>
        ⟨app.nextFetch + k, app.tabBar.postController, .updateViews⟩ := by
  obtain ⟨p, -, rfl, -⟩ := commitDelete_cases hs.2
  have hboard : (app.removeRows P p.id).messageBoard.postController =
      some app.tabBar.postController := hw.messageBoard
  exact post_fetches hboard .Deletion

end App

namespace World

variable {P : Platform} {w₀ w w' v u : World} {is js : List (ℕ × Event)}
  {os ps : List (ℕ × Output)}

/-! ### Deleted posts -/

/-- The post was created and is not on the board any more. -/
def Gone (us : List Update) (id : String) : Prop :=
  (∃ new, .createPost id new ∈ us) ∧ (boardOf us).posts id = none

/-- UUIDs never repeat, so a deleted post does not come back. -/
theorem gone_append {us vs : List Update} {id : String} (hg : Gone us id) {qs : List Unit}
    {d : Database} (h : Database.machine.Run .empty (us ++ vs) qs d) : Gone (us ++ vs) id := by
  induction vs using List.reverseRecOn generalizing qs d with
  | nil => simpa using hg
  | append_singleton vs x ih =>
      rw [← List.append_assoc] at h ⊢
      obtain ⟨d', _, _, hr, hs, -⟩ := h.snoc_inv
      obtain ⟨⟨new, hm⟩, hnone⟩ := ih hr
      refine ⟨⟨new, List.mem_append_left _ hm⟩, ?_⟩
      rw [boardOf_snoc]
      cases x with
      | createPost uuid _ =>
          have hdrawn := (invariant_of_run hr).drawn id (mem_created_of_run hr hm)
          have hne : id ≠ uuid := fun he => hs.1.2 (he ▸ hdrawn)
          simpa [Board.apply, hne] using hnone
      | removePost postId =>
          by_cases he : id = postId
          · subst he
            simp [Board.apply]
          · simpa [Board.apply, he] using hnone
      | createComment _ _ _ _ => exact hnone
      | removeComments _ => exact hnone

/-- No answer brings a deleted post. -/
theorem absent_of_answer (h : WorldInvariant P (updates os) w) {id : String}
    (hg : Gone (updates os) id) {records : List (String × Json)}
    (he : Enumerates (w.database.tree.get ["Posts"]) (.object records)) :
    ∀ p ∈ PostController.decodePosts records, p.id ≠ some id := by
  intro p hp hid
  obtain ⟨id', new, hb, -, rfl⟩ := h.created_of_answer he p hp
  obtain rfl : id' = id := by simpa using hid
  rw [hg.2] at hb
  cases hb

theorem absent_step (h₀ : (machine P).start w₀) (h : (machine P).Run w₀ is os w) {id : String}
    (hg : Gone (updates os) id) {i : ℕ × Event} {o : List (ℕ × Output)}
    (hs : (machine P).Step w i o w') {c : ℕ} (ha : (w.clients c).Absent id) :
    (w'.clients c).Absent id := by
  obtain ⟨o', hclient, -, hothers, -⟩ := step_inv hs
  by_cases hc : c = i.1
  · subst hc
    have hw := wired_of_reachable (client_reachable h₀ h i.1)
    rcases localPosts_step hw hclient with hsub | ⟨n, records, he, hsub⟩
    · exact fun p hp => ha p (hsub p hp)
    · have hpossible : w.Possible P i.2 := hs.1.2
      rw [he] at hpossible
      exact fun p hp => absent_of_answer (worldInvariant_of_run h₀ h) hg hpossible p (hsub p hp)
  · rw [hothers c hc]
    exact ha

/-- A deleted post stays deleted. -/
theorem gone_run (h₀ : (machine P).start w₀) (h : (machine P).Run w₀ is os w) {id : String}
    (hg : Gone (updates os) id) (h' : (machine P).Run w js ps u) : Gone (updates (os ++ ps)) id := by
  obtain ⟨qs, hd⟩ := world_refines_database h₀ (h.append h')
  rw [updates_append] at hd ⊢
  exact gone_append hg hd.of_restrict

/-- **Once the board is rid of a deleted post, it stays rid of it.** -/
theorem absent_run (h₀ : (machine P).start w₀) (h : (machine P).Run w₀ is os w) {id : String}
    (hg : Gone (updates os) id) {c : ℕ} (ha : (w.clients c).Absent id)
    (h' : (machine P).Run w js ps u) : (u.clients c).Absent id := by
  refine h'.history (P := fun _ _ u => (u.clients c).Absent id) ha ?_
  intro js ps v i o v' hr ih hs
  exact absent_step h₀ (h.append hr) (gone_run h₀ h hg hr) hs ih

/-- The answer to a refresh rids the board of a deleted post if and only if it is a dictionary, or
the board was rid of it before. -/
theorem refresh_absent_iff (h₀ : (machine P).start w₀) (h : (machine P).Run w₀ is os w) {id : String}
    (hg : Gone (updates os) id) {c : ℕ} {call : FetchCall} (hpending : call ∈ (w.clients c).fetches)
    (hcompletion : call.completion = .updateViews) {answer : Answer} {o : List (ℕ × Output)}
    (hs : (machine P).Step w (c, .fetchAnswer call.id answer) o w') :
    (w'.clients c).Absent id ↔
      (∃ records, answer = .value (.object records)) ∨ (w.clients c).Absent id := by
  obtain ⟨o', hclient, -, -, -⟩ := step_inv hs
  have hpossible : w.Possible P (.fetchAnswer call.id answer) := hs.1.2
  have hn := numbered_of_reachable (client_reachable h₀ h c)
  constructor
  · intro ha
    rcases refresh_localPosts hn hpending hcompletion hclient with ⟨records, rfl, -⟩ | ⟨-, hsame⟩
    · exact .inl ⟨records, rfl⟩
    · exact .inr fun p hp => ha p (hsame ▸ hp)
  · rintro (⟨records, rfl⟩ | ha)
    · rcases refresh_localPosts hn hpending hcompletion hclient with ⟨records', he, hsub⟩ | ⟨hd, -⟩
      · obtain rfl := Json.object.inj (Answer.value.inj he)
        exact fun p hp => absent_of_answer (worldInvariant_of_run h₀ h) hg hpossible p (hsub p hp)
      · exact absurd rfl (hd records)
    · exact absent_step h₀ h hg hs ha

/-- A swipe that sends the removal of a post deletes that one, which was created and is on the list. -/
theorem commitDelete_deletes (h₀ : (machine P).start w₀) (h : (machine P).Run w₀ is os w)
    {c row : ℕ} {o : List (ℕ × Output)} (hs : (machine P).Step w (c, .commitDelete row) o w')
    {id : String} (hid : (c, .write (.removePost id)) ∈ o) :
    updates o = PostController.deletePostandItsComments id ∧ ∃ new,
      .createPost id new ∈ updates os ∧
      (new.post id).readBack ∈ (w.clients c).recentActivity.usersPosts := by
  obtain ⟨o', hclient, rfl, -, -⟩ := step_inv hs
  have hmem := mem_client_updates.mp hid
  rw [updates_map_client]
  have hsends := sends hclient
  generalize App.updates o' = us at hmem hsends
  cases hsends with
  | nothing => cases hmem
  | @delete _ p hp =>
      have hp' := List.mem_of_getElem? hp
      obtain ⟨uuid, new, hnew, rfl⟩ := ((worldInvariant_of_run h₀ h).created c).usersPosts p hp'
      obtain rfl : id = uuid := by
        simpa [PostController.deletePostandItsComments] using hmem
      exact ⟨rfl, new, hnew, hp'⟩

/-- A swipe deletes the post it sends the removal of. -/
theorem gone_of_commitDelete (h₀ : (machine P).start w₀) (h : (machine P).Run w₀ is os w) {c row : ℕ}
    {o : List (ℕ × Output)} (hs : (machine P).Step w (c, .commitDelete row) o w') {id : String}
    (hid : (c, .write (.removePost id)) ∈ o) : Gone (updates (os ++ o)) id := by
  obtain ⟨hupdates, new, hnew, -⟩ := commitDelete_deletes h₀ h hs hid
  rw [updates_append, hupdates]
  refine ⟨⟨new, List.mem_append_left _ hnew⟩, ?_⟩
  simp [PostController.deletePostandItsComments, boardOf, Board.apply]

/-- **When a refresh takes the deleted post off the screen.**  In every run:

* an answered fetch runs its completion exactly once if and only if the answer is a dictionary;
* a swipe made after the board has appeared issues a refresh, and for every refresh it issues,
  once that is answered, the board is rid of the deleted post if and only if the answer is a
  dictionary or the board was rid of it before; after a dictionary it stays rid of it. -/
theorem refresh_drops_deleted_iff (h₀ : (machine P).start w₀) (h : (machine P).Run w₀ is os w) :
    (∀ c call answer o w', call ∈ (w.clients c).fetches →
      (machine P).Step w (c, .fetchAnswer call.id answer) o w' →
      ((completions (ofClient c (os ++ o))).count call = 1 ↔
        ∃ records, answer = .value (.object records))) ∧
    ∀ c row o w', (machine P).Step w (c, .commitDelete row) o w' →
      .Deletion ∈ (w.clients c).observers → ∀ id, (c, .write (.removePost id)) ∈ o →
      (∃ call ∈ (w'.clients c).fetches, call ∉ (w.clients c).fetches) ∧
      ∀ call ∈ (w'.clients c).fetches, call ∉ (w.clients c).fetches →
        ∀ js ps v answer q v', (machine P).Run w' js ps v → call ∈ (v.clients c).fetches →
          (machine P).Step v (c, .fetchAnswer call.id answer) q v' →
          ((v'.clients c).Absent id ↔
            (∃ records, answer = .value (.object records)) ∨ (v.clients c).Absent id) ∧
          ((∃ records, answer = .value (.object records)) →
            ∀ ks rs u, (machine P).Run v' ks rs u → (u.clients c).Absent id) := by
  constructor
  · intro c call answer o w' hcall hs
    obtain ⟨o', hclient, rfl, -, -⟩ := step_inv hs
    rw [ofClient_append, ofClient_map_self]
    exact completed_once_iff (h₀.2 c) (client_run h c) hcall hclient
  · intro c row o w' hs hobs id hid
    have hgone := gone_of_commitDelete h₀ h hs hid
    have hrun := h.snoc hs
    obtain ⟨o', hclient, -, -, -⟩ := step_inv hs
    have hreach := client_reachable h₀ h c
    have hfetches := commitDelete_fetches (wired_of_reachable hreach) hclient
    have hn := numbered_of_reachable hreach
    constructor
    · have hpos : 0 < (w.clients c).observers.count .Deletion := List.count_pos_iff.mpr hobs
      refine ⟨⟨(w.clients c).nextFetch + 0, (w.clients c).tabBar.postController, .updateViews⟩,
        ?_, fun hm => absurd (hn.below _ hm) (Nat.lt_irrefl _)⟩
      rw [hfetches]
      exact List.mem_append_right _ (List.mem_map.mpr ⟨0, List.mem_range.mpr hpos, rfl⟩)
    · intro call hcall hnew js ps v answer q v' hr hpending hanswer
      have hcompletion : call.completion = .updateViews := by
        rw [hfetches] at hcall
        obtain ⟨k, -, rfl⟩ := List.mem_map.mp ((List.mem_append.mp hcall).resolve_left hnew)
        rfl
      have hrun' := hrun.append hr
      have hgone' := gone_run h₀ hrun hgone hr
      have hiff := refresh_absent_iff h₀ hrun' hgone' hpending hcompletion hanswer
      refine ⟨hiff, fun hd ks rs u hr' => ?_⟩
      have hgone'' := gone_run h₀ hrun' hgone' (.single hanswer)
      exact absent_run h₀ (hrun'.snoc hanswer) hgone'' (hiff.mpr (.inl hd)) hr'

/-! One client, with one post and with two. -/

/-- The client signs in and opens the message board. -/
def signedIn : List (ℕ × Event) :=
  [(0, .tabBarDidAppear), (0, .didSignIn 0 accountA), (0, .messageBoardDidLoad),
    (0, .messageBoardDidAppear), (0, .locationReply 0 (some home))]

/-- The stored record of the sample post. -/
def storedSample (uuid : String) : String × Json := (uuid, (sampleNew.post uuid).stored)

/-- Three fetches, two by the message board and one by recent activity, bring the same posts. -/
def shown (first : ℕ) (posts : List (String × Json)) : List (ℕ × Event) :=
  [(0, .fetchAnswer first (.value (.object posts))), (0, .mainQueueBlock),
    (0, .fetchAnswer (first + 1) (.value (.object posts))), (0, .mainQueueBlock),
    (0, .recentActivityWillAppear), (0, .fetchAnswer (first + 2) (.value (.object posts))),
    (0, .mainQueueBlock)]

/-- The client has one post. -/
def onePost : List (ℕ × Event) :=
  signedIn ++ [(0, .postButtonTapped sampleForm 1580774400 "6F96-8B86")] ++
    shown 0 [storedSample "6F96-8B86"]

theorem last_post_stays : ∃ os w,
    (machine .decimal).Run emptyWorld
      (onePost ++ [(0, .commitDelete 0), (0, .fetchAnswer 3 (.value .null))]) os w ∧
    (0, .write (.removePost "6F96-8B86")) ∈ os ∧ w.database.tree.get ["Posts"] = .null ∧
    (completions (ofClient 0 os)).count ⟨3, 0, .updateViews⟩ = 0 ∧
    (w.clients 0).messageBoard.localPosts.map Post.id = [some "6F96-8B86"] :=
  Machine.Run.exists_of_exec (by decide +kernel) (by decide +kernel)

/-- And then a second one, fetched by both screens. -/
def twoPosts : List (ℕ × Event) :=
  onePost ++ [(0, .postButtonTapped sampleForm 1580774400 "B42D-00CF"), (0, .recentActivityWillAppear)] ++
    ([3, 4].map fun id => (0, .fetchAnswer id (.value (.object
      [storedSample "6F96-8B86", storedSample "B42D-00CF"])))) ++
    [(0, .mainQueueBlock), (0, .mainQueueBlock)]

theorem refresh_drops_deleted_sample : ∃ os w, (machine .decimal).Run emptyWorld
      (twoPosts ++ [(0, .commitDelete 0)] ++
        [(0, .fetchAnswer 5 (.value (.object [storedSample "6F96-8B86"])))]) os w ∧
    (w.clients 0).Absent "B42D-00CF" := by
  obtain ⟨os, w, hr, hobs, hen, ⟨w', o⟩, hs, hid, hcall, hnew, hen', ⟨v', q⟩, hs', -⟩ :=
    Machine.Run.exists_of_exec (M := machine .decimal) (s := emptyWorld) (l := twoPosts)
    (Q := fun w _ => .Deletion ∈ (w.clients 0).observers ∧
      (machine .decimal).enabled w (0, .commitDelete 0) ∧
      ∃ r ∈ ((machine .decimal).step w (0, .commitDelete 0)).toOption,
        (0, .write (.removePost "B42D-00CF")) ∈ r.2 ∧
        ⟨5, 0, .updateViews⟩ ∈ (r.1.clients 0).fetches ∧
        ⟨5, 0, .updateViews⟩ ∉ (w.clients 0).fetches ∧
        (machine .decimal).enabled r.1
          (0, .fetchAnswer 5 (.value (.object [storedSample "6F96-8B86"]))) ∧
        ∃ r' ∈ ((machine .decimal).step r.1
          (0, .fetchAnswer 5 (.value (.object [storedSample "6F96-8B86"])))).toOption, True)
    (by decide +kernel) (by decide +kernel)
  have hdelete := Machine.Step.of_mem_toOption hen hs
  have hanswer := Machine.Step.of_mem_toOption hen' hs'
  obtain ⟨-, hall⟩ := (refresh_drops_deleted_iff (start_emptyWorld _) hr).2 0 0 o w' hdelete hobs
    "B42D-00CF" hid
  obtain ⟨hiff, -⟩ := hall _ hcall hnew [] [] w' _ q v' .refl hcall hanswer
  exact ⟨_, v', (hr.snoc hdelete).snoc hanswer, hiff.mpr (.inl ⟨_, rfl⟩)⟩

end World
end ZipR
