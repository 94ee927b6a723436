import ZipR.Database

/-! # Posts and their comments

What any interleaving of creations, comments and deletions leaves in the store.

* `store_refines_board`: the store is the board of the updates, every update changes what it
  should and nothing else, and `fetchCommentsforPost` delivers the comments since the last removal.
* `comment_key_present_or_late`: a key below `Comments` whose post is gone got a comment after the
  post was removed.  Nothing in the code prevents that (`dangling_comment`): `createComment` does
  not look at `Posts`, and a client may hold an old copy of a post. -/

namespace ZipR

open JsonTree Reactive

/-! ### Refinement -/

/-- The comments created for a post since the last removal of its comments. -/
def commentsSince (id : String) (us : List Update) : List Comment :=
  us.foldl (fun cs u =>
    match u with
    | .createComment uuid author description postID =>
        if postID = id then cs ++ [Comment.init uuid author description none postID] else cs
    | .removeComments postId => if postId = id then [] else cs
    | _ => cs) []

theorem boardOf_comments (id : String) (us : List Update) :
    (boardOf us).comments id = commentsSince id us := by
  induction us using List.reverseRecOn with
  | nil => rfl
  | append_singleton us u ih =>
      rw [boardOf_snoc, commentsSince, List.foldl_append, ← commentsSince, ← ih]
      cases u with
      | createPost _ _ => rfl
      | removePost _ => rfl
      | createComment uuid author description postID =>
          by_cases h : postID = id
          · subst h
            simp [Board.apply]
          · simp [Board.apply, h, Ne.symm h]
      | removeComments postId =>
          by_cases h : postId = id
          · subst h
            simp [Board.apply]
          · simp [Board.apply, h, Ne.symm h]

/-- The completion of `fetchCommentsforPost` is given these comments: nil for none, and otherwise
their contents, each once. -/
def Delivers (delivered : Option (List Comment)) (cs : List Comment) : Prop :=
  match delivered with
  | none => cs = []
  | some l => cs ≠ [] ∧ (l.map Comment.content).Perm (cs.map Comment.content)

theorem Invariant.delivers {d : Database} {b : Board} (h : Invariant d b) {id : String}
    {snapshot : Json} (hs : Enumerates (d.tree.get ["Comments", id]) snapshot)
    (uuid : ℕ → String) :
    ∃ delivered, CommentController.fetchCommentsforPostAnswered uuid (.value snapshot) =
      [delivered] ∧ Delivers delivered (b.comments id) := by
  obtain ⟨kvs, hkvs, hp⟩ := h.represents.comments id
  rw [hkvs] at hs
  obtain ⟨records, rfl, hr⟩ := hs.ofEntries
  have hr' := hr.trans hp
  by_cases hnil : records = []
  · subst hnil
    have hb : b.comments id = [] := by simpa using hr'.symm.eq_nil
    exact ⟨none, rfl, hb⟩
  · refine ⟨some (CommentController.decodeComments uuid records), ?_, ?_, ?_⟩
    · simp only [CommentController.fetchCommentsforPostAnswered, Json.asObject_ofEntries hnil]
    · intro hb
      rw [hb] at hr'
      exact hnil hr'.eq_nil
    · exact h.decodeComments hr' uuid

/-- **The store refines the board.**  After any updates of an empty database:

* it stores the board of the updates, no more and no less;
* every enabled update is executed, acts on the board as `Board.apply` says and leaves every path
  that parts from its own as it was;
* a created post or comment takes a key that is not in use;
* `fetchCommentsforPost` delivers the comments since the last removal, each once, or nil. -/
theorem store_refines_board {us : List Update} {os : List Unit} {d : Database}
    (h : Database.machine.Run .empty us os d) :
    Represents d.tree (boardOf us) ∧
    (∀ u, d.Enabled u → ∃ d', Database.machine.Step d u [] d' ∧
      Represents d'.tree ((boardOf us).apply u) ∧
      ∀ q, Json.Diverge u.ref q → d'.tree.get q = d.tree.get q) ∧
    (∀ uuid, d.Fresh uuid → (boardOf us).posts uuid = none ∧
      ∀ id, uuid ∉ ((boardOf us).comments id).map fun c => c.stored.1) ∧
    ∀ id uuid snapshot, Enumerates (d.tree.get ["Comments", id]) snapshot →
      ∃ delivered, CommentController.fetchCommentsforPostAnswered uuid (.value snapshot) =
        [delivered] ∧ Delivers delivered (commentsSince id us) := by
  have hinv := invariant_of_run h
  refine ⟨hinv.represents, ?_, fun uuid hf => hinv.fresh hf, ?_⟩
  · intro u hu
    exact ⟨_, hinv.exists_step hu, (hinv.step hu).represents,
      fun q hq => d.tree.get_update_of_diverge hq u.value⟩
  · intro id uuid snapshot hs
    rw [← boardOf_comments]
    exact hinv.delivers hs uuid

/-- A post with one comment. -/
def commentedPost : List Update :=
  [.createPost "6F96-8B86" ⟨"A", "Hello", "First post", [], "37.5", "-122.25", "0.0"⟩,
    .createComment "B42D-00CF" "B" "Welcome" "6F96-8B86"]

theorem store_refines_board_sample : ∃ os d, Database.machine.Run .empty commentedPost os d ∧
    Represents d.tree (boardOf commentedPost) ∧
    ∃ delivered, CommentController.fetchCommentsforPostAnswered (fun _ => "C964-FF00")
        (.value (d.tree.get ["Comments", "6F96-8B86"])) = [delivered] ∧
      Delivers delivered [Comment.init "B42D-00CF" "B" "Welcome" none "6F96-8B86"] := by
  obtain ⟨os, d, hr, -⟩ := Machine.Run.exists_of_exec (M := Database.machine) (Q := fun _ _ => True)
    (s := .empty) (l := commentedPost) (by decide +kernel) (by decide +kernel)
  obtain ⟨hrep, -, -, hfetch⟩ := store_refines_board hr
  exact ⟨os, d, hr, hrep, hfetch _ _ _ (Enumerates.refl _)⟩

/-! ### Referential integrity -/

/-- Some comment on the post was created after its record had been removed. -/
def Late (us : List Update) (id : String) : Prop :=
  ∃ pre post uuid author description, us = pre ++ .createComment uuid author description id :: post ∧
    .removePost id ∈ pre

theorem Late.snoc {us : List Update} {id : String} (h : Late us id) (u : Update) :
    Late (us ++ [u]) id := by
  obtain ⟨pre, post, uuid, author, description, rfl, hr⟩ := h
  exact ⟨pre, post ++ [u], uuid, author, description, by simp, hr⟩

/-- Only its removal takes a post off the board. -/
theorem live_snoc {us : List Update} {u : Update} {id : String} (hu : u ≠ .removePost id)
    (hl : (boardOf us).posts id ≠ none) : (boardOf (us ++ [u])).posts id ≠ none := by
  rw [boardOf_snoc]
  cases u with
  | createPost uuid new =>
      by_cases he : id = uuid
      · subst he
        simp [Board.apply]
      · simpa [Board.apply, he] using hl
  | removePost postId =>
      have he : id ≠ postId := fun he => hu (he ▸ rfl)
      simpa [Board.apply, he] using hl
  | createComment _ _ _ _ => exact hl
  | removeComments _ => exact hl

/-- A created post is on the board until its removal. -/
theorem live_or_removed {us : List Update} {os : List Unit} {d : Database}
    (h : Database.machine.Run .empty us os d) {id : String} (hid : id ∈ d.created) :
    (boardOf us).posts id ≠ none ∨ .removePost id ∈ us := by
  refine h.history (P := fun us _ d =>
    ∀ id ∈ d.created, (boardOf us).posts id ≠ none ∨ .removePost id ∈ us) ?_ ?_ id hid
  · intro id hid
    cases hid
  · intro us os d u o d' hr ih hs id hid
    rw [(invariant_of_run hr).step_eq hs] at hid
    by_cases hu : u = .removePost id
    · exact .inr (by simp [hu])
    · have hold : id ∈ d.created →
          (boardOf (us ++ [u])).posts id ≠ none ∨ .removePost id ∈ us ++ [u] := fun hm =>
        (ih id hm).imp (live_snoc hu) (List.mem_append_left _)
      cases u with
      | createPost uuid new =>
          rcases List.mem_cons.mp hid with rfl | hm
          · left
            rw [boardOf_snoc]
            simp [Board.apply]
          · exact hold hm
      | removePost _ => exact hold hid
      | createComment _ _ _ _ => exact hold hid
      | removeComments _ => exact hold hid

/-- A post with comments is still there, is being deleted, or was commented on too late. -/
theorem commented_live_or_late {us : List Update} {os : List Unit} {d : Database}
    (h : Database.machine.Run .empty us os d) {id : String} (hid : (boardOf us).comments id ≠ []) :
    (boardOf us).posts id ≠ none ∨ id ∈ d.deleting ∨ Late us id := by
  refine h.history (P := fun us _ d => ∀ id, (boardOf us).comments id ≠ [] →
    (boardOf us).posts id ≠ none ∨ id ∈ d.deleting ∨ Late us id) ?_ ?_ id hid
  · intro id hid
    exact absurd rfl hid
  · intro us os d u o d' hr ih hs id hid
    rw [(invariant_of_run hr).step_eq hs]
    by_cases hu : u = .removePost id
    · subst hu
      exact .inr (.inl List.mem_cons_self)
    · have hold : (boardOf us).comments id ≠ [] → (id ∈ d.deleting → id ∈ (d.note u).deleting) →
          (boardOf (us ++ [u])).posts id ≠ none ∨ id ∈ (d.note u).deleting ∨ Late (us ++ [u]) id :=
        fun hc hd => (ih id hc).imp (live_snoc hu) (Or.imp hd fun hl => hl.snoc u)
      rw [boardOf_snoc] at hid
      cases u with
      | createPost _ _ => exact hold hid fun hd => hd
      | createComment uuid author description postID =>
          by_cases he : id = postID
          · subst he
            -- a comment on a post that is gone is a late one
            rcases live_or_removed hr hs.1.2 with hl | hl
            · exact .inl (live_snoc hu hl)
            · exact .inr (.inr ⟨us, [], uuid, author, description, rfl, hl⟩)
          · have hc : (boardOf us).comments id ≠ [] := by simpa [Board.apply, he] using hid
            exact hold hc fun hd => hd
      | removePost postId => exact hold hid fun hd => List.mem_cons_of_mem _ hd
      | removeComments postId =>
          by_cases he : id = postId
          · subst he
            simp [Board.apply] at hid
          · have hc : (boardOf us).comments id ≠ [] := by simpa [Board.apply, he] using hid
            exact hold hc (List.mem_erase_of_ne he).mpr

/-- **Comments of deleted posts are late.**  When no deletion is half done, every key below
`Comments` is the id of a post below `Posts`, unless a comment on it was created after the post's
record had been removed. -/
theorem comment_key_present_or_late {us : List Update} {os : List Unit} {d : Database}
    (h : Database.machine.Run .empty us os d) (hdel : d.deleting = []) {id : String}
    (hid : id ∈ (d.tree.get ["Comments"]).entries.map Prod.fst) :
    id ∈ (d.tree.get ["Posts"]).entries.map Prod.fst ∨ Late us id := by
  have hinv := invariant_of_run h
  rcases commented_live_or_late h (hinv.mem_comments_keys_iff.mp hid) with hl | hl | hl
  · left
    obtain ⟨p, hp⟩ := Option.ne_none_iff_exists'.mp hl
    exact List.mem_map.mpr ⟨(id, p.stored), hinv.mem_posts_iff.mpr ⟨p, hp, rfl⟩, rfl⟩
  · rw [hdel] at hl
    cases hl
  · exact .inr hl

/-- A post is created, deleted, and commented on by a client that still shows it. -/
def lateComment : List Update :=
  .createPost "6F96-8B86" ⟨"A", "Hello", "First post", [], "37.5", "-122.25", "0.0"⟩ ::
    PostController.deletePostandItsComments "6F96-8B86" ++
    [.createComment "B42D-00CF" "B" "Welcome" "6F96-8B86"]

theorem dangling_comment : ∃ os d, Database.machine.Run .empty lateComment os d ∧
    d.deleting = [] ∧ "6F96-8B86" ∈ (d.tree.get ["Comments"]).entries.map Prod.fst ∧
    "6F96-8B86" ∉ (d.tree.get ["Posts"]).entries.map Prod.fst :=
  Machine.Run.exists_of_exec (by decide +kernel) (by decide +kernel)

theorem comment_key_present_or_late_sample : Late lateComment "6F96-8B86" := by
  obtain ⟨os, d, hr, hdel, hcomments, hposts⟩ := Machine.Run.exists_of_exec
    (M := Database.machine) (s := .empty) (l := lateComment) (Q := fun d _ => d.deleting = [] ∧
      "6F96-8B86" ∈ (d.tree.get ["Comments"]).entries.map Prod.fst ∧
      "6F96-8B86" ∉ (d.tree.get ["Posts"]).entries.map Prod.fst)
    (by decide +kernel) (by decide +kernel)
  exact (comment_key_present_or_late hr hdel hcomments).resolve_left hposts

end ZipR
