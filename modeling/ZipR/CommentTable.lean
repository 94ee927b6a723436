import ZipR.Comments
import ZipR.Refresh

/-! # The comments on a detail screen

A detail screen keeps its own copy of the comments on its post.  It fetches them in `viewDidLoad`
and after each comment of its own; a completion replaces the array at once and enqueues the
`reloadData` of the table, and a completion without comments changes nothing.

* **Steps.** `machine P c detail` is the world together with the table of one detail screen of the
  client `c`: the world goes on freely, and a `postComment` of the screen that sends a comment
  also fetches.
* `own_comment_shown`: once a fetch is answered, a comment of one's own is on the screen and stays
  there until the comments of the post are removed.
* `shown_of_run`: what the screen shows are the comments the post had at one moment, never a
  mixture; comments once shown never leave an empty screen.
* `comment_row_of_run`: a row of the table is there to be shown when no reload is queued, and
  always as long as the comments of the post are not removed (`stale_row_traps` otherwise). -/

namespace ZipR

open Reactive JsonTree App

/-- The comment table of a `DetailPostViewController`. -/
structure CommentTable where
  viewLoaded : Bool
  comments : List Comment
  /-- `numberOfRowsInSection` at the last reload. -/
  rows : ℕ
  /-- The calls of `fetchCommentsforPost` that wait for an answer, with their `postID`. -/
  fetches : List (ℕ × String)
  nextFetch : ℕ
  /-- The `reloadData` blocks on the main queue. -/
  reloads : ℕ
deriving DecidableEq, Repr

/-- Detail screens are kept until the process is started again. -/
theorem App.details_prefix {P : Platform} {app app' : App} {e : Event} {os : List Output}
    (hs : (App.machine P).Step app e os app') (he : ∀ signOutError, e ≠ .launch signOutError) :
    app.details <+: app'.details := by
  cases dataStep hs with
  | launch signOutError => exact absurd rfl (he signOutError)
  | issue hi => exact hi.details.symm ▸ List.prefix_refl _
  | drop _ => exact List.prefix_refl _
  | complete _ hcomplete =>
      rcases complete_cases hcomplete with ⟨_, _, _, -, -, rfl⟩ | ⟨_, -, -, rfl⟩ | ⟨_, -, -, rfl⟩ <;>
        exact List.prefix_refl _
  | block =>
      obtain ⟨_, _, _, h, -⟩ := mainQueueBlock_eq app
      exact h ▸ List.prefix_refl _
  | delete _ => exact (post_details _ _).symm ▸ List.prefix_refl _
  | select _ => exact List.prefix_append _ _

/-- A comment is sent by the screen it is typed on. -/
theorem App.postComment_sends {app app' : App} {os : List Output} {detail : ℕ}
    {commentText : Option String} {uuid : String} {u : Update}
    (h : app.postComment detail commentText uuid = .ok (app', os)) (hu : u ∈ updates os) :
    ∃ self, app.details[detail]? = some self ∧ ∃ author description postID,
      app.newComment self commentText = some (author, description, postID) ∧
      u = .createComment uuid author description postID ∧ os = [.write u] := by
  unfold postComment at h
  cases hn : app.details[detail]?.bind fun self => app.newComment self commentText with
  | none =>
      simp only [hn, Except.ok.injEq, Prod.mk.injEq] at h
      rw [← h.2] at hu
      cases hu
  | some args =>
      obtain ⟨author, description, postID⟩ := args
      obtain ⟨self, hself, hnew⟩ := Option.bind_eq_some_iff.mp hn
      simp only [hn] at h
      cases hs : send (.createComment uuid author description postID) with
      | error e => rw [hs] at h; cases h
      | ok o =>
          rw [hs] at h
          obtain ⟨rfl, rfl⟩ := Prod.mk.inj (Except.ok.inj h)
          obtain rfl := send_eq_ok hs
          obtain rfl := List.mem_singleton.mp hu
          exact ⟨self, hself, author, description, postID, hnew, rfl, rfl⟩

namespace CommentTable

def new : CommentTable := ⟨false, [], 0, [], 0, 0⟩

def fetchCommentsforPost (table : CommentTable) (postID : String) : CommentTable :=
  { table with
    fetches := table.fetches ++ [(table.nextFetch, postID)]
    nextFetch := table.nextFetch + 1 }

def updateViews (table : CommentTable) (self : DetailPostViewController) : CommentTable :=
  match self.post with
  | none => table
  | some post =>
      match post.tag, post.id with
      | some _, some postId => table.fetchCommentsforPost postId
      | _, _ => table

def viewDidLoad (table : CommentTable) (self : DetailPostViewController) : CommentTable :=
  ({ table with viewLoaded := true } : CommentTable).updateViews self

/-- `postComment()` behind its guards and `createComment`. -/
def postComment (table : CommentTable) (self : DetailPostViewController) : CommentTable :=
  match self.post.bind Post.id with
  | none => table
  | some postID => table.fetchCommentsforPost postID

/-- The completion passed to `fetchCommentsforPost`. -/
def complete (table : CommentTable) : Option (List Comment) → CommentTable
  | none => table
  | some comments => { table with comments := comments, reloads := table.reloads + 1 }

/-- The callback of a fetch, with the completion calls it makes. -/
def answered (table : CommentTable) (id : ℕ) (answer : Answer) (uuid : ℕ → String) : CommentTable :=
  (CommentController.fetchCommentsforPostAnswered uuid answer).foldl complete
    { table with fetches := table.fetches.filter fun call => call.1 ≠ id }

def reloadData (table : CommentTable) : CommentTable :=
  { table with rows := table.comments.length, reloads := table.reloads - 1 }

/-- The two texts of a cell. -/
def cellForRowAt (table : CommentTable) (row : ℕ) : Except Trap (String × String) :=
  match table.comments[row]? with
  | none => .error .indexOutOfRange
  | some comment => .ok (comment.description, comment.author)

end CommentTable

/-! ### A detail screen in the world -/

structure DetailScreen where
  world : World
  table : CommentTable

inductive ScreenEvent where
  | world (i : ℕ × Event)
  | viewDidLoad
  | fetchAnswer (id : ℕ) (answer : Answer) (uuid : ℕ → String)
  | reloadData
  | cellForRowAt (row : ℕ)

namespace DetailScreen

section
variable (c detail : ℕ)

/-- The view controller, while its process runs. -/
def controller (s : DetailScreen) : Option DetailPostViewController :=
  (s.world.clients c).details[detail]?

def postID (s : DetailScreen) : Option String :=
  (s.controller c detail).bind fun self => self.post.bind Post.id

/-- What an event of the world with these outputs does to the table. -/
def tableAfter (s : DetailScreen) (i : ℕ × Event) (os : List (ℕ × Output)) : CommentTable :=
  match i with
  | (client, .launch _) => if client = c then .new else s.table
  | (client, .postComment index _ _) =>
      match s.controller c detail with
      | none => s.table
      | some self =>
          if client = c ∧ index = detail ∧ os ≠ [] then s.table.postComment self else s.table
  | _ => s.table

def step (P : Platform) (s : DetailScreen) :
    ScreenEvent → Except Trap (DetailScreen × List (ℕ × Output))
  | .world i => do
      let (world, os) ← World.step P s.world i
      return (⟨world, s.tableAfter c detail i os⟩, os)
  | .viewDidLoad =>
      match s.controller c detail with
      | none => .ok (s, [])
      | some self => .ok ({ s with table := s.table.viewDidLoad self }, [])
  | .fetchAnswer id answer uuid => .ok ({ s with table := s.table.answered id answer uuid }, [])
  | .reloadData => .ok ({ s with table := s.table.reloadData }, [])
  | .cellForRowAt row => do
      let _ ← s.table.cellForRowAt row
      return (s, [])

/-- Comments are typed on a screen that has been loaded. -/
def Typed (s : DetailScreen) : ℕ × Event → Prop
  | (client, .postComment index _ _) => client = c → index = detail → s.table.viewLoaded = true
  | _ => True

/-- A fetch is answered with the comments as they are, in any order, or cancelled. -/
def Answers (s : DetailScreen) (postID : String) : Answer → Prop
  | .cancelled => True
  | .value snapshot => Enumerates (s.world.database.tree.get ["Comments", postID]) snapshot

def Enabled (P : Platform) (s : DetailScreen) : ScreenEvent → Prop
  | .world i => (World.machine P).enabled s.world i ∧ s.Typed c detail i
  | .viewDidLoad => s.controller c detail ≠ none ∧ s.table.viewLoaded = false
  | .fetchAnswer id answer _ => ∃ call ∈ s.table.fetches, call.1 = id ∧ s.Answers call.2 answer
  | .reloadData => 0 < s.table.reloads
  | .cellForRowAt row => row < s.table.rows

/-- The world with one detail screen that has not been opened. -/
def machine (P : Platform) : Machine DetailScreen ScreenEvent (ℕ × Output) Trap where
  start s := (World.machine P).start s.world ∧ s.table = .new
  enabled := Enabled c detail P
  step := step c detail P

instance (s : DetailScreen) (i : ℕ × Event) : Decidable (s.Typed c detail i) := by
  unfold Typed
  split <;> infer_instance

instance (s : DetailScreen) (postID : String) (answer : Answer) :
    Decidable (s.Answers postID answer) := by
  cases answer <;> unfold Answers <;> infer_instance

instance {P : Platform} [∀ x, Decidable (P.Finite x)] [∀ s, Decidable (P.UUID s)]
    (s : DetailScreen) (e : ScreenEvent) : Decidable ((machine c detail P).enabled s e) :=
  match e with
  | .world i =>
      inferInstanceAs (Decidable ((World.machine P).enabled s.world i ∧ s.Typed c detail i))
  | .viewDidLoad =>
      inferInstanceAs (Decidable (s.controller c detail ≠ none ∧ s.table.viewLoaded = false))
  | .fetchAnswer id answer _ =>
      inferInstanceAs (Decidable (∃ call ∈ s.table.fetches, call.1 = id ∧ s.Answers call.2 answer))
  | .reloadData => inferInstanceAs (Decidable (0 < s.table.reloads))
  | .cellForRowAt row => inferInstanceAs (Decidable (row < s.table.rows))

end

/-! ### What a step does -/

/-- A table that has at most fetched, for the post with this id. -/
structure Asked (postID : Option String) (table table' : CommentTable) : Prop where
  comments : table'.comments = table.comments
  rows : table'.rows = table.rows
  reloads : table'.reloads = table.reloads
  fetches : ∀ call ∈ table'.fetches, call ∈ table.fetches ∨ postID = some call.2

theorem Asked.refl (postID : Option String) (table : CommentTable) : Asked postID table table :=
  ⟨rfl, rfl, rfl, fun _ h => .inl h⟩

theorem Asked.fetch {postID : Option String} {id : String} (h : postID = some id)
    (table : CommentTable) : Asked postID table (table.fetchCommentsforPost id) where
  comments := rfl
  rows := rfl
  reloads := rfl
  fetches call hcall := by
    rcases List.mem_append.mp hcall with hcall | hcall
    · exact .inl hcall
    · obtain rfl := List.mem_singleton.mp hcall
      exact .inr h

theorem Asked.viewDidLoad (self : DetailPostViewController) (table : CommentTable) :
    Asked (self.post.bind Post.id) table (table.viewDidLoad self) := by
  have hloaded : Asked (self.post.bind Post.id) table { table with viewLoaded := true } :=
    ⟨rfl, rfl, rfl, fun _ h => .inl h⟩
  unfold CommentTable.viewDidLoad CommentTable.updateViews
  split
  · exact hloaded
  · rename_i post hpost
    split
    · rename_i postId _ hid
      have hpostID : self.post.bind Post.id = some postId := by rw [hpost, Option.bind_some, hid]
      have hfetch := Asked.fetch hpostID { table with viewLoaded := true }
      exact ⟨hfetch.comments, hfetch.rows, hfetch.reloads, hfetch.fetches⟩
    · exact hloaded

theorem Asked.postComment (self : DetailPostViewController) (table : CommentTable) :
    Asked (self.post.bind Post.id) table (table.postComment self) := by
  unfold CommentTable.postComment
  split
  · exact .refl _ _
  · rename_i hid
    exact .fetch hid _

variable {P : Platform} {c detail : ℕ} {s s' : DetailScreen} {e : ScreenEvent}
  {o : List (ℕ × Output)}

/-- The process of the screen is started again. -/
def Relaunches (c : ℕ) : ScreenEvent → Prop
  | .world (client, .launch _) => client = c
  | _ => False

/-- What a step does to the table. -/
inductive TableStep (c detail : ℕ) (s : DetailScreen) : ScreenEvent → CommentTable → Prop
  | relaunch {e : ScreenEvent} : Relaunches c e → TableStep c detail s e .new
  | ask {e : ScreenEvent} {table : CommentTable} : ¬ Relaunches c e →
      (∀ id answer uuid, e ≠ .fetchAnswer id answer uuid) →
      Asked (s.postID c detail) s.table table → (s.controller c detail = none → table = s.table) →
      TableStep c detail s e table
  | answer {id : ℕ} {postID : String} {answer : Answer} {uuid : ℕ → String} :
      (id, postID) ∈ s.table.fetches → s.Answers postID answer →
      TableStep c detail s (.fetchAnswer id answer uuid) (s.table.answered id answer uuid)
  | reload : TableStep c detail s .reloadData s.table.reloadData

theorem TableStep.same (h : ¬ Relaunches c e)
    (ha : ∀ id answer uuid, e ≠ .fetchAnswer id answer uuid) : TableStep c detail s e s.table :=
  .ask h ha (.refl _ _) fun _ => rfl

theorem tableStep_tableAfter (i : ℕ × Event) :
    TableStep c detail s (.world i) (s.tableAfter c detail i o) := by
  obtain ⟨client, event⟩ := i
  cases event with
  | launch signOutError =>
      by_cases hc : client = c
      · simp only [tableAfter, if_pos hc]
        exact .relaunch hc
      · simp only [tableAfter, if_neg hc]
        exact .same hc nofun
  | postComment index commentText uuid =>
      simp only [tableAfter]
      cases hself : s.controller c detail with
      | none => exact .same not_false nofun
      | some self =>
          have hid : s.postID c detail = self.post.bind Post.id := by
            rw [postID, hself, Option.bind_some]
          simp only
          split
          · exact .ask not_false nofun (hid ▸ .postComment self s.table) fun h => by simp [hself] at h
          · exact .same not_false nofun
  | _ => exact .same not_false nofun

theorem step_cases (hs : (machine c detail P).Step s e o s') :
    TableStep c detail s e s'.table ∧
      ((∃ i, e = .world i ∧ (World.machine P).Step s.world i o s'.world) ∨
        (∀ i, e ≠ .world i) ∧ s'.world = s.world ∧ o = []) := by
  obtain ⟨hen, hs⟩ := hs
  cases e with
  | world i =>
      simp only [machine, step] at hs
      cases hw : World.step P s.world i with
      | error e => rw [hw] at hs; cases hs
      | ok r =>
          obtain ⟨world, os⟩ := r
          rw [hw] at hs
          obtain ⟨rfl, rfl⟩ := Prod.mk.inj (Except.ok.inj hs)
          exact ⟨tableStep_tableAfter i, .inl ⟨i, rfl, hen.1, hw⟩⟩
  | viewDidLoad =>
      simp only [machine, step] at hs
      cases hself : s.controller c detail with
      | none => exact absurd hself hen.1
      | some self =>
          rw [hself] at hs
          obtain ⟨rfl, rfl⟩ := Prod.mk.inj (Except.ok.inj hs)
          have hid : s.postID c detail = self.post.bind Post.id := by
            rw [postID, hself, Option.bind_some]
          refine ⟨.ask not_false nofun (hid ▸ .viewDidLoad self s.table) ?_, .inr ⟨nofun, rfl, rfl⟩⟩
          exact fun h => by simp [hself] at h
  | fetchAnswer id answer uuid =>
      obtain ⟨rfl, rfl⟩ := Prod.mk.inj (Except.ok.inj hs)
      obtain ⟨⟨id, postID⟩, hcall, rfl, hanswer⟩ := hen
      exact ⟨.answer hcall hanswer, .inr ⟨nofun, rfl, rfl⟩⟩
  | reloadData =>
      obtain ⟨rfl, rfl⟩ := Prod.mk.inj (Except.ok.inj hs)
      exact ⟨.reload, .inr ⟨nofun, rfl, rfl⟩⟩
  | cellForRowAt row =>
      simp only [machine, step] at hs
      cases hcell : s.table.cellForRowAt row with
      | error e => rw [hcell] at hs; cases hs
      | ok cell =>
          rw [hcell] at hs
          obtain ⟨rfl, rfl⟩ := Prod.mk.inj (Except.ok.inj hs)
          exact ⟨.same not_false nofun, .inr ⟨nofun, rfl, rfl⟩⟩

/-- The world under a screen runs as if the screen were not there. -/
theorem world_run {s₀ : DetailScreen} {is : List ScreenEvent} {os : List (ℕ × Output)}
    (h : (machine c detail P).Run s₀ is os s) :
    ∃ is', (World.machine P).Run s₀.world is' os s.world := by
  induction h with
  | refl => exact ⟨[], .refl⟩
  | snoc _ hs ih =>
      obtain ⟨is', hr⟩ := ih
      rcases (step_cases hs).2 with ⟨i, -, hw⟩ | ⟨-, hw, rfl⟩
      · exact ⟨_, hr.snoc hw⟩
      · rw [hw, List.append_nil]
        exact ⟨is', hr⟩

/-- The view controller of a screen does not change until its process is started again. -/
theorem controller_step (hs : (machine c detail P).Step s e o s') (he : ¬ Relaunches c e)
    {self : DetailPostViewController} (h : s.controller c detail = some self) :
    s'.controller c detail = some self := by
  rcases (step_cases hs).2 with ⟨⟨client, event⟩, rfl, hw⟩ | ⟨-, hw, -⟩
  · obtain ⟨os, hclient, -, hothers, -⟩ := World.step_inv hw
    by_cases hc : client = c
    · subst hc
      have hlaunch : ∀ signOutError, event ≠ .launch signOutError := by
        rintro signOutError rfl
        exact he rfl
      obtain ⟨more, hmore⟩ := App.details_prefix hclient hlaunch
      obtain ⟨hlt, -⟩ := List.getElem?_eq_some_iff.mp h
      rw [controller, ← hmore, List.getElem?_append_left hlt]
      exact h
    · rw [controller, hothers c (Ne.symm hc)]
      exact h
  · rw [controller, hw]
    exact h

/-! ### What an answer does -/

/-- An answered fetch leaves the comments, or replaces them by those of the answer. -/
theorem answered_cases {b : Board} (hinv : Invariant s.world.database b) {postID : String}
    {answer : Answer} (h : s.Answers postID answer) (id : ℕ) (uuid : ℕ → String) :
    (s.table.answered id answer uuid =
        { s.table with fetches := s.table.fetches.filter fun call => call.1 ≠ id } ∧
      ∀ snapshot, answer = .value snapshot → b.comments postID = []) ∨
    ∃ comments, b.comments postID ≠ [] ∧
      (comments.map Comment.content).Perm ((b.comments postID).map Comment.content) ∧
      s.table.answered id answer uuid = { s.table with
        fetches := s.table.fetches.filter fun call => call.1 ≠ id
        comments := comments
        reloads := s.table.reloads + 1 } := by
  cases answer with
  | cancelled => exact .inl ⟨rfl, nofun⟩
  | value snapshot =>
      obtain ⟨delivered, hd, hdelivers⟩ := hinv.delivers h uuid
      rw [CommentTable.answered, hd]
      cases delivered with
      | none => exact .inl ⟨rfl, fun _ _ => hdelivers⟩
      | some comments => exact .inr ⟨comments, hdelivers.1, hdelivers.2, rfl⟩

/-! ### Invariants -/

/-- Without a removal comments only come. -/
theorem prefix_commentsSince (id : String) (us : List Update) {vs : List Update}
    (h : .removeComments id ∉ vs) : commentsSince id us <+: commentsSince id (us ++ vs) := by
  induction vs using List.reverseRecOn with
  | nil => exact (List.append_nil us).symm ▸ List.prefix_refl _
  | append_singleton vs u ih =>
      refine (ih fun hm => h (List.mem_append_left _ hm)).trans ?_
      rw [← List.append_assoc, ← boardOf_comments, ← boardOf_comments, boardOf_snoc]
      cases u with
      | createComment uuid author description postID =>
          by_cases hid : postID = id
          · subst hid
            rw [Board.apply, Board.setComments_comments_self]
            exact List.prefix_append _ _
          · have hne : id ≠ postID := Ne.symm hid
            exact ⟨[], (List.append_nil _).trans (Board.setComments_comments_ne _ _ _ hne).symm⟩
      | removeComments postId =>
          have hid : id ≠ postId := by
            rintro rfl
            exact h (by simp)
          exact ⟨[], (List.append_nil _).trans (Board.setComments_comments_ne _ _ _ hid).symm⟩
      | createPost _ _ => exact List.prefix_refl _
      | removePost _ => exact List.prefix_refl _

/-- What a screen satisfies after the updates `us`. -/
structure Shows (c detail : ℕ) (us : List Update) (s : DetailScreen) : Prop where
  unopened : s.controller c detail = none → s.table = .new
  fetches : ∀ call ∈ s.table.fetches, s.postID c detail = some call.2
  settled : s.table.reloads = 0 → s.table.rows = s.table.comments.length
  rows : (∀ id, s.postID c detail = some id → .removeComments id ∉ us) →
    s.table.rows ≤ s.table.comments.length
  comments : ∀ id, s.postID c detail = some id → .removeComments id ∉ us →
    s.table.comments.length ≤ (commentsSince id us).length

theorem Shows.new {us : List Update} (h : s.table = .new) : Shows c detail us s where
  unopened _ := h
  fetches call hcall := by rw [h] at hcall; cases hcall
  settled _ := by rw [h]; rfl
  rows _ := by rw [h]; exact le_rfl
  comments _ _ _ := by rw [h]; exact Nat.zero_le _

theorem postID_step (hs : (machine c detail P).Step s e o s') (he : ¬ Relaunches c e)
    (h : s.controller c detail ≠ none) : s'.postID c detail = s.postID c detail := by
  obtain ⟨self, hself⟩ := Option.ne_none_iff_exists'.mp h
  rw [postID, postID, controller_step hs he hself, hself]

theorem Shows.ask {us : List Update} (h : Shows c detail us s)
    (hs : (machine c detail P).Step s e o s') (he : ¬ Relaunches c e)
    (hasked : Asked (s.postID c detail) s.table s'.table)
    (hsame : s.controller c detail = none → s'.table = s.table) :
    Shows c detail (us ++ World.updates o) s' := by
  by_cases hself : s.controller c detail = none
  · exact .new ((hsame hself).trans (h.unopened hself))
  · have hid := postID_step hs he hself
    constructor
    · intro hnone
      obtain ⟨self, hself⟩ := Option.ne_none_iff_exists'.mp hself
      simp [controller_step hs he hself] at hnone
    · intro call hcall
      rw [hid]
      exact (hasked.fetches call hcall).elim (h.fetches call) id
    · intro hreloads
      rw [hasked.rows, hasked.comments]
      exact h.settled (hasked.reloads ▸ hreloads)
    · intro hkept
      rw [hasked.rows, hasked.comments]
      exact h.rows fun id hid' hm => hkept id (hid.trans hid') (List.mem_append_left _ hm)
    · intro id hid' hkept
      rw [hasked.comments]
      have hold := h.comments id (hid ▸ hid') fun hm => hkept (List.mem_append_left _ hm)
      have hnew := prefix_commentsSince id us fun hm => hkept (List.mem_append_right _ hm)
      exact hold.trans hnew.length_le

theorem Shows.answer {us : List Update} (h : Shows c detail us s)
    (hinv : Invariant s.world.database (boardOf us)) {id : ℕ} {postID : String} {answer : Answer}
    {uuid : ℕ → String} (hcall : (id, postID) ∈ s.table.fetches) (ha : s.Answers postID answer) :
    Shows c detail us { s with table := s.table.answered id answer uuid } := by
  have hid := h.fetches _ hcall
  have hself : s.controller c detail ≠ none := by
    intro hnone
    simp [DetailScreen.postID, hnone] at hid
  have hfetches : ∀ call ∈ s.table.fetches.filter fun call => call.1 ≠ id,
      s.postID c detail = some call.2 := fun call hcall =>
    h.fetches call (List.mem_of_mem_filter hcall)
  rcases answered_cases hinv ha id uuid with ⟨heq, -⟩ | ⟨comments, -, hperm, heq⟩
  · rw [heq]
    exact ⟨fun hnone => absurd hnone hself, hfetches, h.settled, h.rows, h.comments⟩
  · have hlength : comments.length = (commentsSince postID us).length := by
      rw [← boardOf_comments, ← List.length_map Comment.content, hperm.length_eq, List.length_map]
    rw [heq]
    refine ⟨fun hnone => absurd hnone hself, hfetches, nofun, fun hkept => ?_, ?_⟩
    · have hold := h.comments postID hid (hkept postID hid)
      exact (h.rows hkept).trans (hold.trans hlength.ge)
    · rintro id' hid' -
      obtain rfl := Option.some.inj (hid.symm.trans hid')
      exact hlength.le

theorem Shows.reload {us : List Update} (h : Shows c detail us s)
    (hreloads : 0 < s.table.reloads) :
    Shows c detail us { s with table := s.table.reloadData } := by
  have hself : s.controller c detail ≠ none := by
    intro hnone
    rw [h.unopened hnone] at hreloads
    exact absurd hreloads (Nat.lt_irrefl 0)
  exact ⟨fun hnone => absurd hnone hself, h.fetches, fun _ => rfl, fun _ => le_rfl, h.comments⟩

theorem Shows.step {us : List Update} (h : Shows c detail us s)
    (hinv : Invariant s.world.database (boardOf us)) (hs : (machine c detail P).Step s e o s') :
    Shows c detail (us ++ World.updates o) s' := by
  obtain ⟨htable, hworld⟩ := step_cases hs
  obtain ⟨world, table⟩ := s'
  cases htable with
  | relaunch _ => exact .new rfl
  | ask he _ hasked hsame => exact h.ask hs he hasked hsame
  | answer hcall hanswer =>
      obtain ⟨rfl, rfl⟩ : world = s.world ∧ o = [] := by simpa using hworld
      exact (List.append_nil us).symm ▸ h.answer hinv hcall hanswer
  | reload =>
      obtain ⟨rfl, rfl⟩ : world = s.world ∧ o = [] := by simpa using hworld
      exact (List.append_nil us).symm ▸ h.reload hs.1

variable {s₀ : DetailScreen} {is : List ScreenEvent} {os : List (ℕ × Output)}

/-- The database under a screen stores the board of the updates. -/
theorem database_of_run (h₀ : (machine c detail P).start s₀)
    (h : (machine c detail P).Run s₀ is os s) :
    Invariant s.world.database (boardOf (World.updates os)) := by
  obtain ⟨is', hw⟩ := world_run h
  obtain ⟨qs, hr⟩ := (World.worldInvariant_of_run h₀.1 hw).run
  exact invariant_of_run hr.of_restrict

theorem shows_of_run (h₀ : (machine c detail P).start s₀)
    (h : (machine c detail P).Run s₀ is os s) : Shows c detail (World.updates os) s := by
  refine h.history (P := fun _ os s => Shows c detail (World.updates os) s) (.new h₀.2) ?_
  intro is os s e o s' hr ih hs
  rw [World.updates_append]
  exact ih.step (database_of_run h₀ hr) hs

/-! ### One's own comment -/

/-- A comment that is sent is one on the post of the screen, and the screen fetches. -/
theorem postComment_step {commentText : Option String} {uuid author description id : String}
    (hs : (machine c detail P).Step s (.world (c, .postComment detail commentText uuid)) o s')
    (hsent : (c, .write (.createComment uuid author description id)) ∈ o) :
    s.postID c detail = some id ∧ s'.table = s.table.fetchCommentsforPost id ∧
      World.updates o = [.createComment uuid author description id] := by
  obtain ⟨hen, hs⟩ := hs
  simp only [machine, step] at hs
  cases hw : World.step P s.world (c, .postComment detail commentText uuid) with
  | error e => rw [hw] at hs; cases hs
  | ok r =>
      obtain ⟨world, o'⟩ := r
      rw [hw] at hs
      obtain ⟨rfl, rfl⟩ := Prod.mk.inj (Except.ok.inj hs)
      obtain ⟨os, hclient, rfl, -⟩ := World.step_inv ⟨hen.1, hw⟩
      rw [World.updates_map_client]
      rw [World.mem_client_updates] at hsent
      obtain ⟨self, hself, _, _, _, hnew, hu, rfl⟩ := postComment_sends hclient.2 hsent
      obtain ⟨-, rfl, rfl, rfl⟩ := Update.createComment.inj hu
      obtain ⟨post, r, user, hpost, hid, -⟩ := newComment_eq_some hnew
      have hcontroller : s.controller c detail = some self := hself
      have hpostID : self.post.bind Post.id = some id := by rw [hpost, Option.bind_some, hid]
      refine ⟨?_, ?_, rfl⟩
      · rw [postID, hcontroller, Option.bind_some, hpostID]
      · simp [tableAfter, hcontroller, CommentTable.postComment, hpostID]

/-- **A comment of one's own is shown.**  The comment a detail screen sends is followed by a fetch.
Once a fetch of the screen has been answered after that, whatever else happens in the world, the
comment is among those the screen shows, until the process ends or the comments of the post are
removed. -/
theorem own_comment_shown {s₀ s t : DetailScreen} {is js : List ScreenEvent}
    {os ps : List (ℕ × Output)} {commentText : Option String}
    {uuid author description id : String} (h₀ : (machine c detail P).start s₀)
    (h : (machine c detail P).Run s₀ is os s)
    (hs : (machine c detail P).Step s (.world (c, .postComment detail commentText uuid)) o s')
    (hsent : (c, .write (.createComment uuid author description id)) ∈ o)
    (h' : (machine c detail P).Run s' js ps t) (hruns : ∀ e ∈ js, ¬ Relaunches c e)
    (hkept : .removeComments id ∉ World.updates ps) :
    (s.table.nextFetch, id) ∈ s'.table.fetches ∧
      ((∃ k snapshot uuids, .fetchAnswer k (.value snapshot) uuids ∈ js) →
        ∃ comment ∈ t.table.comments, comment.content = (author, description, id)) := by
  obtain ⟨hid, htable, hupdates⟩ := postComment_step hs hsent
  refine ⟨by rw [htable]; exact List.mem_append_right _ (List.mem_singleton_self _), ?_⟩
  have hmem : Comment.init uuid author description none id ∈
      commentsSince id (World.updates os ++ World.updates o) := by
    rw [hupdates, ← boardOf_comments, boardOf_snoc, Board.apply, Board.setComments_comments_self]
    exact List.mem_append_right _ (List.mem_singleton_self _)
  have hself : s.controller c detail ≠ none := by
    intro hnone
    simp [DetailScreen.postID, hnone] at hid
  have hall := h'.history (P := fun js ps t => (∀ e ∈ js, ¬ Relaunches c e) →
    .removeComments id ∉ World.updates ps → t.postID c detail = some id ∧
      ((∃ k snapshot uuids, .fetchAnswer k (.value snapshot) uuids ∈ js) →
        ∃ comment ∈ t.table.comments, comment.content = (author, description, id))) ?_ ?_
  · exact (hall hruns hkept).2
  · rintro - -
    exact ⟨(postID_step hs not_false hself).trans hid, by simp⟩
  · intro js ps t e o' t' hr' ih hs' hruns hkept
    rw [World.updates_append] at hkept
    have hkept' : .removeComments id ∉ World.updates ps := fun hm =>
      hkept (List.mem_append_left _ hm)
    obtain ⟨hid', hshown⟩ := ih (fun e he => hruns e (List.mem_append_left _ he)) hkept'
    have he : ¬ Relaunches c e := hruns e (by simp)
    have hself' : t.controller c detail ≠ none := by
      intro hnone
      simp [DetailScreen.postID, hnone] at hid'
    refine ⟨(postID_step hs' he hself').trans hid', ?_⟩
    rintro ⟨k, snapshot, uuids, hanswered⟩
    have hbefore : .fetchAnswer k (.value snapshot) uuids ≠ e →
        ∃ comment ∈ t.table.comments, comment.content = (author, description, id) := fun hne =>
      hshown ⟨k, snapshot, uuids, (List.mem_append.mp hanswered).resolve_right fun hm =>
        hne (List.mem_singleton.mp hm)⟩
    have htable' := (step_cases hs').1
    generalize t'.table = table at htable'
    cases htable' with
    | relaunch hrelaunch => exact absurd hrelaunch he
    | ask _ hask hasked _ =>
        rw [hasked.comments]
        exact hbefore fun heq => hask _ _ _ heq.symm
    | @answer k' postID answer uuids' hcall hanswer =>
        have hrun := (h.snoc hs).append hr'
        have hinv := database_of_run h₀ hrun
        rw [World.updates_append, World.updates_append] at hinv
        obtain rfl : id = postID := by
          have hfetch := (shows_of_run h₀ hrun).fetches _ hcall
          exact Option.some.inj (hid'.symm.trans hfetch)
        have hnow : Comment.init uuid author description none id ∈
            (boardOf (World.updates os ++ World.updates o ++ World.updates ps)).comments id := by
          rw [boardOf_comments]
          exact (prefix_commentsSince id _ hkept').subset hmem
        rcases answered_cases hinv hanswer k' uuids' with
          ⟨heq, hnone⟩ | ⟨comments, -, hperm, heq⟩
        · rw [heq]
          refine hbefore fun hsame => ?_
          obtain ⟨-, rfl, -⟩ := ScreenEvent.fetchAnswer.inj hsame
          rw [hnone _ rfl] at hnow
          cases hnow
        · rw [heq]
          obtain ⟨comment, hcomment, hcontent⟩ := List.mem_map.mp
            (hperm.symm.subset (List.mem_map_of_mem hnow))
          exact ⟨comment, hcomment, hcontent⟩
    | reload => exact hbefore (by simp)

/-! A client opens its post, comments, and sees the comment. -/

def storedComment (uuid description : String) : String × Json :=
  (Comment.init uuid "A" description none "6F96-8B86").stored

/-- The client opens the detail screen of its post, which has no comments. -/
def opened : List ScreenEvent :=
  World.onePost.map .world ++
    [.world (0, .selectRow 0), .viewDidLoad, .fetchAnswer 0 (.value .null) fun _ => ""]

/-- A comment, and the answer to the fetch behind it. -/
def comments (uuid description : String) (k : ℕ) (stored : List (String × Json)) :
    List ScreenEvent :=
  [.world (0, .postComment 0 (some description) uuid),
    .fetchAnswer k (.value (.object stored)) fun _ => "0000-0000"]

def emptyScreen : DetailScreen := ⟨World.emptyWorld, .new⟩

theorem start_emptyScreen (c detail : ℕ) (P : Platform) :
    (machine c detail P).start emptyScreen := ⟨World.start_emptyWorld P, rfl⟩

theorem own_comment_shown_sample : ∃ os t, (machine 0 0 .decimal).Run emptyScreen
      (opened ++ comments "C964-FF00" "Hi" 1 [storedComment "C964-FF00" "Hi"]) os t ∧
    ∃ comment ∈ t.table.comments, comment.content = ("A", "Hi", "6F96-8B86") := by
  obtain ⟨os, s, hr, hen, ⟨s', o⟩, hs, hsent, hen', ⟨t, ps⟩, hs', hkept⟩ :=
    Machine.Run.exists_of_exec (M := machine 0 0 .decimal) (s := emptyScreen) (l := opened)
    (Q := fun s _ =>
      (machine 0 0 .decimal).enabled s (.world (0, .postComment 0 (some "Hi") "C964-FF00")) ∧
      ∃ r ∈ ((machine 0 0 .decimal).step s
          (.world (0, .postComment 0 (some "Hi") "C964-FF00"))).toOption,
        (0, .write (.createComment "C964-FF00" "A" "Hi" "6F96-8B86")) ∈ r.2 ∧
        (machine 0 0 .decimal).enabled r.1
          (.fetchAnswer 1 (.value (.object [storedComment "C964-FF00" "Hi"])) fun _ =>
            "0000-0000") ∧
        ∃ r' ∈ ((machine 0 0 .decimal).step r.1
          (.fetchAnswer 1 (.value (.object [storedComment "C964-FF00" "Hi"])) fun _ =>
            "0000-0000")).toOption,
          .removeComments "6F96-8B86" ∉ World.updates r'.2)
    (by decide +kernel) (by decide +kernel)
  have hpost := Machine.Step.of_mem_toOption hen hs
  have hanswer := Machine.Step.of_mem_toOption hen' hs'
  obtain ⟨-, hshown⟩ := own_comment_shown (start_emptyScreen 0 0 _) hr hpost hsent
    (.single hanswer) (fun e he => by rw [List.mem_singleton.mp he]; exact not_false) hkept
  exact ⟨_, t, hr.append ((Machine.Run.single hpost).append (.single hanswer)),
    hshown ⟨_, _, _, List.mem_singleton_self _⟩⟩

/-! ### What is shown -/

/-- **What a screen shows is what the post had at one moment.**  In every run, the comments of a
detail screen, if any, are those of its post after some prefix of the run, each once.  An answer
with a snapshot makes them the present ones unless the post has none: comments once shown stay
until the process ends or others replace them. -/
theorem shown_of_run (h₀ : (machine c detail P).start s₀)
    (h : (machine c detail P).Run s₀ is os s) :
    (s.table.comments ≠ [] → ∃ id, s.postID c detail = some id ∧
      ∃ pre ps t, pre <+: is ∧ (machine c detail P).Run s₀ pre ps t ∧
        (s.table.comments.map Comment.content).Perm
          ((commentsSince id (World.updates ps)).map Comment.content)) ∧
    ∀ e o s', (machine c detail P).Step s e o s' → ¬ Relaunches c e →
      s'.table.comments = s.table.comments ∨
      ∃ k snapshot uuids id, e = .fetchAnswer k (.value snapshot) uuids ∧
        s.postID c detail = some id ∧ s'.table.comments ≠ [] ∧
        (s'.table.comments.map Comment.content).Perm
          ((commentsSince id (World.updates os)).map Comment.content) := by
  have hstep : ∀ is os s, (machine c detail P).Run s₀ is os s → ∀ e o s',
      (machine c detail P).Step s e o s' → ¬ Relaunches c e →
      s'.table.comments = s.table.comments ∨
      ∃ k snapshot uuids id, e = .fetchAnswer k (.value snapshot) uuids ∧
        s.postID c detail = some id ∧ s'.table.comments ≠ [] ∧
        (s'.table.comments.map Comment.content).Perm
          ((commentsSince id (World.updates os)).map Comment.content) := by
    intro is os s hr e o s' hs he
    have htable := (step_cases hs).1
    generalize s'.table = table at htable
    cases htable with
    | relaunch hrelaunch => exact absurd hrelaunch he
    | ask _ _ hasked _ => exact .inl hasked.comments
    | @answer k postID answer uuids hcall hanswer =>
        rcases answered_cases (database_of_run h₀ hr) hanswer k uuids with
          ⟨heq, -⟩ | ⟨comments, hne, hperm, heq⟩
        · exact .inl (by rw [heq])
        · cases answer with
          | cancelled => exact .inl rfl
          | value snapshot =>
              right
              refine ⟨k, snapshot, uuids, postID, rfl, (shows_of_run h₀ hr).fetches _ hcall, ?_, ?_⟩
              · rw [heq]
                rintro rfl
                exact hne (by simpa using hperm.symm.eq_nil)
              · rw [heq, ← boardOf_comments]
                exact hperm
    | reload => exact .inl rfl
  refine ⟨?_, hstep is os s h⟩
  refine h.history (P := fun is _ s => s.table.comments ≠ [] → ∃ id,
    s.postID c detail = some id ∧ ∃ pre ps t, pre <+: is ∧ (machine c detail P).Run s₀ pre ps t ∧
      (s.table.comments.map Comment.content).Perm
        ((commentsSince id (World.updates ps)).map Comment.content)) ?_ ?_
  · intro hne
    rw [h₀.2] at hne
    exact absurd rfl hne
  · intro is os s e o s' hr ih hs hne
    by_cases he : Relaunches c e
    · have htable := (step_cases hs).1
      generalize s'.table = table at htable hne
      cases htable with
      | relaunch _ => exact absurd rfl hne
      | ask hno _ _ _ => exact absurd he hno
      | answer _ _ => cases he
      | reload => cases he
    · have hopen : s.table ≠ .new → s.controller c detail ≠ none := fun hnew hnone =>
        hnew ((shows_of_run h₀ hr).unopened hnone)
      rcases hstep is os s hr e o s' hs he with hsame | ⟨_, _, _, id, -, hid, -, hperm⟩
      · rw [hsame] at hne ⊢
        obtain ⟨id, hid, pre, ps, t, hpre, hrun, hperm⟩ := ih hne
        refine ⟨id, ?_, pre, ps, t, hpre.trans (List.prefix_append _ _), hrun, hperm⟩
        exact (postID_step hs he (hopen fun hnew => hne (by rw [hnew]; rfl))).trans hid
      · refine ⟨id, ?_, is, os, s, List.prefix_append _ _, hr, hperm⟩
        refine (postID_step hs he fun hnone => ?_).trans hid
        simp [DetailScreen.postID, hnone] at hid

/-- **A row that is asked for is there.**  In every run, the table asks for a row that the array
has, provided that no reload is queued or that the comments of the post have not been removed. -/
theorem comment_row_of_run (h₀ : (machine c detail P).start s₀)
    (h : (machine c detail P).Run s₀ is os s) {row : ℕ}
    (hrow : (machine c detail P).enabled s (.cellForRowAt row))
    (hsafe : s.table.reloads = 0 ∨
      ∀ id, s.postID c detail = some id → .removeComments id ∉ World.updates os) :
    ∃ comment, s.table.comments[row]? = some comment ∧
      s.table.cellForRowAt row = .ok (comment.description, comment.author) := by
  have hshows := shows_of_run h₀ h
  have hlt : row < s.table.comments.length := by
    have hrow : row < s.table.rows := hrow
    rcases hsafe with hreloads | hkept
    · rw [← hshows.settled hreloads]
      exact hrow
    · exact hrow.trans_le (hshows.rows hkept)
  refine ⟨_, List.getElem?_eq_getElem hlt, ?_⟩
  rw [CommentTable.cellForRowAt, List.getElem?_eq_getElem hlt]

/-- Two comments are shown. -/
def twoComments : List ScreenEvent :=
  opened ++ comments "C964-FF00" "Hi" 1 [storedComment "C964-FF00" "Hi"] ++
    comments "D1E2-0A0B" "Ho" 2 [storedComment "C964-FF00" "Hi", storedComment "D1E2-0A0B" "Ho"] ++
    [.reloadData, .reloadData]

/-- The post is deleted, and commented on once more. -/
def deletedAndCommented : List ScreenEvent :=
  .world (0, .commitDelete 0) :: comments "E3F4-0C0D" "He" 3 [storedComment "E3F4-0C0D" "He"]

theorem shown_of_run_sample : ∃ os s, (machine 0 0 .decimal).Run emptyScreen twoComments os s ∧
    ∃ id, s.postID 0 0 = some id ∧ ∃ pre ps t, pre <+: twoComments ∧
      (machine 0 0 .decimal).Run emptyScreen pre ps t ∧
      (s.table.comments.map Comment.content).Perm
        ((commentsSince id (World.updates ps)).map Comment.content) := by
  obtain ⟨os, s, hr, hne⟩ := Machine.Run.exists_of_exec (M := machine 0 0 .decimal)
    (s := emptyScreen) (l := twoComments) (Q := fun s _ => s.table.comments ≠ [])
    (by decide +kernel) (by decide +kernel)
  exact ⟨os, s, hr, (shown_of_run (start_emptyScreen 0 0 _) hr).1 hne⟩

theorem comment_row_of_run_sample : ∃ os s,
    (machine 0 0 .decimal).Run emptyScreen twoComments os s ∧
    ∃ comment, s.table.cellForRowAt 1 = .ok comment := by
  obtain ⟨os, s, hr, hrow, hreloads⟩ := Machine.Run.exists_of_exec (M := machine 0 0 .decimal)
    (s := emptyScreen) (l := twoComments)
    (Q := fun s _ => (machine 0 0 .decimal).enabled s (.cellForRowAt 1) ∧ s.table.reloads = 0)
    (by decide +kernel) (by decide +kernel)
  obtain ⟨_, -, hcell⟩ := comment_row_of_run (start_emptyScreen 0 0 _) hr hrow (.inl hreloads)
  exact ⟨os, s, hr, _, hcell⟩

/-- Otherwise the table may ask for a row that is gone. -/
theorem stale_row_traps : ∃ os s,
    (machine 0 0 .decimal).Run emptyScreen (twoComments ++ deletedAndCommented) os s ∧
    (machine 0 0 .decimal).enabled s (.cellForRowAt 1) ∧
    (s.table.cellForRowAt 1).toOption = none :=
  Machine.Run.exists_of_exec (by decide +kernel) (by decide +kernel)

end DetailScreen
end ZipR
