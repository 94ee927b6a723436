import ZipR.Machine
import ZipR.Controllers
import Mathlib.Logic.Function.Basic

/-! # The shared database and the board it stands for

Any number of clients change the database through `createPost`, `createComment` and
`deletePostandItsComments`; an `Update` is one write of one of these calls, and the two writes of
a deletion are two updates.

* **Concrete.** A `Database` holds the stored tree, and the bookkeeping the environment needs: the
  UUIDs drawn so far, the ids of created posts and the deletions whose second write is
  outstanding.  `Database.machine` interleaves updates freely; UUIDs never repeat, and clients
  comment on and delete created posts only.
* **Abstract.** A `Board` maps ids to posts and to the comments on them.
* **Refinement.** `Represents t b`: the tree `t` stores exactly the board `b`.  `Invariant.step`
  is the simulation step and `invariant_of_run` its consequence for runs: the database always
  represents `boardOf` of the updates so far.

`Invariant.decodePosts` and `Invariant.decodeComments` read a represented board back. -/

namespace ZipR

open JsonTree Reactive

/-! ### Records -/

/-- The value written for a post. -/
def Post.record (p : Post) : Json :=
  match p.dictionaryRepresentation with
  | .ok dictionary => .object dictionary
  | .error _ => .null

def Comment.record (c : Comment) : Json :=
  match c.dictionaryRepresentation with
  | .ok dictionary => .object dictionary
  | .error _ => .null

/-- What the store keeps of a post. -/
def Post.stored (p : Post) : Json := p.record.prune

/-- What the store keeps of a comment, with the key it is kept under. -/
def Comment.stored (c : Comment) : String × Json := (c.id.getD "", c.record.prune)

theorem Post.Complete.stored {p : Post} (h : p.Complete) :
    ∃ kvs, kvs ≠ [] ∧ p.stored = .ofEntries kvs ∧ Post.initDictionary kvs = some p.readBack := by
  obtain ⟨dictionary, hd⟩ := h.dictionaryRepresentation
  refine ⟨Json.pruneEntries dictionary, pruneEntries_dictionaryRepresentation_ne_nil h hd, ?_,
    initDictionary_stored h hd⟩
  rw [Post.stored, Post.record, hd, Json.prune_object]

theorem Post.Complete.stored_ne_null {p : Post} (h : p.Complete) : p.stored ≠ .null := by
  obtain ⟨kvs, hne, hs, -⟩ := h.stored
  rw [hs, ne_eq, Json.ofEntries_eq_null]
  exact hne

/-- Reading a stored post back. -/
theorem Post.Complete.decode_stored {p : Post} (h : p.Complete) :
    (p.stored.asObject >>= Post.initDictionary) = some p.readBack := by
  obtain ⟨kvs, hne, hs, hd⟩ := h.stored
  rw [hs, Json.asObject_ofEntries hne]
  exact hd

/-- Reading a stored comment back: its id is a new one. -/
theorem Comment.decode_stored (c : Comment) (h : c.id.isSome) (uuid : String) :
    (c.stored.2.asObject >>= Comment.initDictionary uuid) = some { c with id := some uuid } := by
  obtain ⟨id, hid⟩ := Option.isSome_iff_exists.mp h
  have hd : ∃ dictionary, c.dictionaryRepresentation = .ok dictionary := by
    rw [Comment.dictionaryRepresentation, hid]
    exact ⟨_, rfl⟩
  obtain ⟨dictionary, hd⟩ := hd
  have hs : c.stored.2 = .ofEntries (Json.pruneEntries dictionary) := by
    rw [Comment.stored, Comment.record, hd, Json.prune_object]
  rw [hs, Json.asObject_ofEntries (pruneEntries_dictionaryRepresentation_ne_nil hd)]
  exact initDictionary_stored hd uuid

/-! ### Updates -/

inductive Update where
  | createPost (uuid : String) (new : NewPost)
  | createComment (uuid author description postID : String)
  /-- The first write of `deletePostandItsComments`. -/
  | removePost (postId : String)
  /-- Its second write. -/
  | removeComments (postId : String)
deriving DecidableEq, Repr

/-- The write the controllers send. -/
def Update.write : Update → Except Trap Write
  | .createPost uuid new => PostController.createPost uuid new
  | .createComment uuid author description postID =>
      CommentController.createComment uuid author description postID
  | .removePost postId => PostController.removePost postId
  | .removeComments postId => PostController.removeComments postId

/-- Both writes of a deletion, in the order in which they are sent. -/
def PostController.deletePostandItsComments (postId : String) : List Update :=
  [.removePost postId, .removeComments postId]

structure Database where
  tree : Tree
  uuids : List String
  created : List String
  deleting : List String

namespace Database

def empty : Database := ⟨.empty, [], [], []⟩

/-- The bookkeeping of an update. -/
def note (d : Database) : Update → Database
  | .createPost uuid _ => { d with uuids := uuid :: d.uuids, created := uuid :: d.created }
  | .createComment uuid _ _ _ => { d with uuids := uuid :: d.uuids }
  | .removePost postId => { d with deleting := postId :: d.deleting }
  | .removeComments postId => { d with deleting := d.deleting.erase postId }

def step (d : Database) (u : Update) : Except Trap (Database × List Unit) :=
  u.write.map fun w => ({ d.note u with tree := w.apply d.tree }, [])

/-- A key that no UUID drawn before equals. -/
def Fresh (d : Database) (uuid : String) : Prop := isValidKey uuid = true ∧ uuid ∉ d.uuids

instance (d : Database) (uuid : String) : Decidable (d.Fresh uuid) :=
  inferInstanceAs (Decidable (isValidKey uuid = true ∧ uuid ∉ d.uuids))

def Enabled (d : Database) : Update → Prop
  | .createPost uuid _ => d.Fresh uuid
  | .createComment uuid _ _ postID => d.Fresh uuid ∧ postID ∈ d.created
  | .removePost postId => postId ∈ d.created
  | .removeComments postId => postId ∈ d.deleting

instance (d : Database) (u : Update) : Decidable (d.Enabled u) := by
  cases u <;> unfold Enabled <;> infer_instance

/-- Clients updating an initially empty database in any order. -/
def machine : Machine Database Update Unit Trap where
  start d := d = empty
  enabled := Enabled
  step := step

end Database

instance (d : Database) (u : Update) : Decidable (Database.machine.enabled d u) :=
  inferInstanceAs (Decidable (d.Enabled u))

/-! ### The abstract board -/

structure Board where
  posts : String → Option Post
  comments : String → List Comment

namespace Board

def empty : Board := ⟨fun _ => none, fun _ => []⟩

def setPost (b : Board) (id : String) (p : Option Post) : Board :=
  { b with posts := Function.update b.posts id p }

def setComments (b : Board) (id : String) (cs : List Comment) : Board :=
  { b with comments := Function.update b.comments id cs }

section accessors
variable (b : Board) (id : String) {l : String} (p : Option Post) (cs : List Comment)

@[simp] theorem setPost_posts_self : (b.setPost id p).posts id = p := by simp [setPost]

@[simp] theorem setPost_posts_ne (h : l ≠ id) : (b.setPost id p).posts l = b.posts l := by
  simp [setPost, h]

@[simp] theorem setComments_posts : (b.setComments id cs).posts = b.posts := rfl

@[simp] theorem setComments_comments_self : (b.setComments id cs).comments id = cs := by
  simp [setComments]

@[simp] theorem setComments_comments_ne (h : l ≠ id) :
    (b.setComments id cs).comments l = b.comments l := by
  simp [setComments, h]

end accessors

def apply (b : Board) : Update → Board
  | .createPost uuid new => b.setPost uuid (some (new.post uuid))
  | .createComment uuid author description postID =>
      b.setComments postID
        (b.comments postID ++ [Comment.init uuid author description none postID])
  | .removePost postId => b.setPost postId none
  | .removeComments postId => b.setComments postId []

end Board

/-- The board after the given updates of an empty one. -/
def boardOf (us : List Update) : Board := us.foldl Board.apply Board.empty

@[simp] theorem boardOf_snoc (us : List Update) (u : Update) :
    boardOf (us ++ [u]) = (boardOf us).apply u := by
  simp [boardOf]

/-! ### The representation -/

/-- The tree stores the board and nothing else. -/
structure Represents (t : Tree) (b : Board) : Prop where
  posts : ∀ id, t.get ["Posts", id] = (b.posts id).elim .null Post.stored
  postsNode : ∃ kvs, t.get ["Posts"] = .ofEntries kvs
  comments : ∀ id, ∃ kvs, t.get ["Comments", id] = .ofEntries kvs ∧
    kvs.Perm ((b.comments id).map Comment.stored)
  nothingElse : ∀ k, k ≠ "Posts" → k ≠ "Comments" → t.get [k] = .null

theorem represents_empty : Represents .empty .empty where
  posts _ := by rw [Tree.get_empty]; rfl
  postsNode := ⟨[], by rw [Tree.get_empty]; rfl⟩
  comments _ := ⟨[], by rw [Tree.get_empty]; rfl, .refl _⟩
  nothingElse _ _ _ := Tree.get_empty _

namespace Represents

variable {t : Tree} {b : Board}

/-- A write of one post record. -/
theorem update_post (h : Represents t b) (k : String) {v : Json} {p : Option Post}
    (hv : v.prune = p.elim .null Post.stored) :
    Represents (t.update ["Posts", k] v) (b.setPost k p) where
  posts id := by
    by_cases hid : id = k
    · subst hid
      rw [Board.setPost_posts_self, ← hv]
      exact t.root.get_update_self _ v
    · rw [Board.setPost_posts_ne _ _ _ hid, ← h.posts id]
      exact t.get_update_of_diverge (.tail (.head (Ne.symm hid) _ _) _ _) v
  postsNode := by
    obtain ⟨kvs, hk⟩ := h.postsNode
    refine ⟨Json.setKey k v.prune kvs, ?_⟩
    have hup := t.get_update_append ["Posts"] [k] v
    rw [hk, Json.update_singleton] at hup
    exact hup
  comments id := by
    rw [t.get_update_of_diverge (.head (by decide) _ _) v]
    exact h.comments id
  nothingElse l hp hc := by
    rw [t.get_update_of_diverge (.head (Ne.symm hp) _ _) v]
    exact h.nothingElse l hp hc

/-- A write at or below the comments of one post. -/
theorem update_comments (h : Represents t b) (k : String) (p : Path) {v : Json} {cs : List Comment}
    (hk : ∃ kvs, (t.update ("Comments" :: k :: p) v).get ["Comments", k] = .ofEntries kvs ∧
      kvs.Perm (cs.map Comment.stored)) :
    Represents (t.update ("Comments" :: k :: p) v) (b.setComments k cs) where
  posts id := by
    rw [t.get_update_of_diverge (.head (by decide) _ _) v]
    exact h.posts id
  postsNode := by
    rw [t.get_update_of_diverge (.head (by decide) _ _) v]
    exact h.postsNode
  comments id := by
    by_cases hid : id = k
    · subst hid
      rw [Board.setComments_comments_self]
      exact hk
    · rw [Board.setComments_comments_ne _ _ _ hid,
        t.get_update_of_diverge (.tail (.head (Ne.symm hid) _ _) _ _) v]
      exact h.comments id
  nothingElse l hp hc := by
    rw [t.get_update_of_diverge (.head (Ne.symm hc) _ _) v]
    exact h.nothingElse l hp hc

theorem add_comment (h : Represents t b) (k : String) (c : Comment)
    (hnew : c.stored.1 ∉ (b.comments k).map fun c => c.stored.1) (hne : c.stored.2 ≠ .null) :
    Represents (t.update ["Comments", k, c.stored.1] c.record)
      (b.setComments k (b.comments k ++ [c])) := by
  refine h.update_comments k [c.stored.1] ?_
  obtain ⟨kvs, hkvs, hp⟩ := h.comments k
  have hup := t.get_update_append ["Comments", k] [c.stored.1] c.record
  rw [hkvs, Json.update_singleton] at hup
  refine ⟨_, hup, ?_⟩
  have hnot : c.stored.1 ∉ kvs.map Prod.fst := by
    rw [(hp.map Prod.fst).mem_iff, List.map_map]
    exact hnew
  have hnn : ¬ c.record.prune.isNull = true := by
    rw [Json.isNull_iff]
    exact hne
  rw [Json.setKey, if_neg hnn, Json.eraseKey_of_not_mem hnot, List.map_append]
  exact hp.append_right _

theorem remove_comments (h : Represents t b) (k : String) :
    Represents (t.update ["Comments", k] .null) (b.setComments k []) := by
  refine h.update_comments k [] ⟨[], ?_, .refl _⟩
  exact (t.root.get_update_self _ _).trans Json.prune_null

end Represents

/-! ### The simulation -/

/-- The database represents the board, and the bookkeeping covers it. -/
structure Invariant (d : Database) (b : Board) : Prop where
  represents : Represents d.tree b
  valid : ∀ u ∈ d.uuids, isValidKey u = true
  drawn : ∀ id ∈ d.created, id ∈ d.uuids
  deleting : ∀ id ∈ d.deleting, id ∈ d.created
  post : ∀ id p, b.posts id = some p → id ∈ d.created ∧ p.id = some id ∧ p.Complete
  comment : ∀ id, ∀ c ∈ b.comments id,
    id ∈ d.created ∧ c.postID = id ∧ ∃ u ∈ d.uuids, c.id = some u

theorem invariant_empty : Invariant .empty .empty where
  represents := represents_empty
  valid _ h := by cases h
  drawn _ h := by cases h
  deleting _ h := by cases h
  post _ _ h := by cases h
  comment _ _ h := by cases h

/-- The path of the write an update sends. -/
def Update.ref : Update → Path
  | .createPost uuid _ => ["Posts", uuid]
  | .createComment uuid _ _ postID => ["Comments", postID, uuid]
  | .removePost postId => ["Posts", postId]
  | .removeComments postId => ["Comments", postId]

/-- The value it writes. -/
def Update.value : Update → Json
  | .createPost uuid new => (new.post uuid).record
  | .createComment uuid author description postID =>
      (Comment.init uuid author description none postID).record
  | .removePost _ => .null
  | .removeComments _ => .null

namespace Invariant

variable {d : Database} {b : Board}

theorem valid_created (h : Invariant d b) {id : String} (hid : id ∈ d.created) :
    isValidKey id = true := h.valid id (h.drawn id hid)

/-- An enabled update sends its value to its path and never traps. -/
theorem write_eq (h : Invariant d b) {u : Update} (hu : d.Enabled u) :
    ∃ w, u.write = .ok w ∧ ∀ t : Tree, w.apply t = t.update u.ref u.value := by
  cases u with
  | createPost uuid new =>
      obtain ⟨dictionary, hd⟩ := (new.post_complete uuid).dictionaryRepresentation
      refine ⟨.setValue ["Posts", uuid] (.object dictionary), ?_, fun t => ?_⟩
      · simp [Update.write, PostController.createPost, hd, child_of_isValidKey hu.1, bind,
          Except.bind, pure, Except.pure]
      · simp [Write.apply, Update.ref, Update.value, Post.record, hd]
  | createComment uuid author description postID =>
      have hp := h.valid_created hu.2
      refine ⟨.setValue ["Comments", postID, uuid]
        (Comment.init uuid author description none postID).record, ?_, fun t => rfl⟩
      simp [Update.write, CommentController.createComment, Comment.init, Comment.record,
        Comment.dictionaryRepresentation, child_of_isValidKey hp, child_of_isValidKey hu.1.1, bind,
        Except.bind, pure, Except.pure]
  | removePost postId =>
      refine ⟨.removeValue ["Posts", postId], ?_, fun t => rfl⟩
      simp [Update.write, PostController.removePost, child_of_isValidKey (h.valid_created hu),
        bind, Except.bind, pure, Except.pure]
  | removeComments postId =>
      refine ⟨.removeValue ["Comments", postId], ?_, fun t => rfl⟩
      simp [Update.write, PostController.removeComments,
        child_of_isValidKey (h.valid_created (h.deleting _ hu)), bind, Except.bind, pure,
        Except.pure]

/-- Enabled updates are executed. -/
theorem exists_step (h : Invariant d b) {u : Update} (hu : d.Enabled u) :
    Database.machine.Step d u [] { d.note u with tree := d.tree.update u.ref u.value } := by
  obtain ⟨w, hw, happ⟩ := h.write_eq hu
  refine ⟨hu, ?_⟩
  simp only [Database.machine, Database.step, hw, Except.map, happ]

/-- The next state of a step. -/
theorem step_eq (h : Invariant d b) {u : Update} {o : List Unit} {d' : Database}
    (hs : Database.machine.Step d u o d') :
    d' = { d.note u with tree := d.tree.update u.ref u.value } :=
  (hs.unique (h.exists_step hs.1)).1

/-- A fresh UUID is no key yet. -/
theorem fresh (h : Invariant d b) {uuid : String} (hf : d.Fresh uuid) :
    b.posts uuid = none ∧ ∀ id, uuid ∉ (b.comments id).map fun c => c.stored.1 := by
  constructor
  · cases hp : b.posts uuid with
    | none => rfl
    | some p => exact absurd (h.drawn _ (h.post uuid p hp).1) hf.2
  · intro id hm
    obtain ⟨c, hc, rfl⟩ := List.mem_map.mp hm
    obtain ⟨-, -, u, hu, hcu⟩ := h.comment id c hc
    refine hf.2 ?_
    rw [Comment.stored, hcu]
    exact hu

/-- **Simulation step**: an update of the database is the update of the board. -/
theorem step (h : Invariant d b) {u : Update} (hu : d.Enabled u) :
    Invariant { d.note u with tree := d.tree.update u.ref u.value } (b.apply u) := by
  cases u with
  | createPost uuid new =>
      refine ⟨h.represents.update_post uuid rfl, ?_, ?_, ?_, ?_, ?_⟩
      · intro u hm
        rcases List.mem_cons.mp hm with rfl | hm
        · exact hu.1
        · exact h.valid u hm
      · intro id hm
        rcases List.mem_cons.mp hm with rfl | hm
        · exact List.mem_cons_self
        · exact List.mem_cons_of_mem _ (h.drawn id hm)
      · exact fun id hm => List.mem_cons_of_mem _ (h.deleting id hm)
      · intro id p hp
        by_cases hid : id = uuid
        · subst hid
          obtain rfl : new.post id = p := by simpa [Board.apply] using hp
          exact ⟨List.mem_cons_self, rfl, new.post_complete id⟩
        · have hp' : b.posts id = some p := by simpa [Board.apply, hid] using hp
          obtain ⟨hc, hi⟩ := h.post id p hp'
          exact ⟨List.mem_cons_of_mem _ hc, hi⟩
      · intro id c hc
        obtain ⟨hid, hpid, u, hu', hcu⟩ := h.comment id c hc
        exact ⟨List.mem_cons_of_mem _ hid, hpid, u, List.mem_cons_of_mem _ hu', hcu⟩
  | createComment uuid author description postID =>
      have hnew := (h.fresh hu.1).2 postID
      have hne : (Comment.init uuid author description none postID).stored.2 ≠ .null := by
        have hdec := (Comment.init uuid author description none postID).decode_stored rfl ""
        intro hnull
        rw [hnull] at hdec
        cases hdec
      refine ⟨h.represents.add_comment postID (Comment.init uuid author description none postID)
        hnew hne, ?_, ?_, h.deleting, h.post, ?_⟩
      · intro u hm
        rcases List.mem_cons.mp hm with rfl | hm
        · exact hu.1.1
        · exact h.valid u hm
      · exact fun id hm => List.mem_cons_of_mem _ (h.drawn id hm)
      · intro id c hc
        have hold : ∀ c ∈ b.comments id,
            id ∈ d.created ∧ c.postID = id ∧ ∃ u ∈ uuid :: d.uuids, c.id = some u := by
          intro c hc
          obtain ⟨hid, hpid, u, hu', hcu⟩ := h.comment id c hc
          exact ⟨hid, hpid, u, List.mem_cons_of_mem _ hu', hcu⟩
        by_cases hid : id = postID
        · subst hid
          simp only [Board.apply, Board.setComments_comments_self, List.mem_append,
            List.mem_singleton] at hc
          rcases hc with hc | rfl
          · exact hold c hc
          · exact ⟨hu.2, rfl, uuid, List.mem_cons_self, rfl⟩
        · exact hold c (by simpa [Board.apply, hid] using hc)
  | removePost postId =>
      refine ⟨h.represents.update_post postId Json.prune_null, h.valid, h.drawn, ?_, ?_,
        h.comment⟩
      · intro id hm
        rcases List.mem_cons.mp hm with rfl | hm
        · exact hu
        · exact h.deleting id hm
      · intro id p hp
        by_cases hid : id = postId
        · subst hid
          simp [Board.apply] at hp
        · exact h.post id p (by simpa [Board.apply, hid] using hp)
  | removeComments postId =>
      refine ⟨h.represents.remove_comments postId, h.valid, h.drawn, ?_, h.post, ?_⟩
      · exact fun id hm => h.deleting id (List.mem_of_mem_erase hm)
      · intro id c hc
        by_cases hid : id = postId
        · subst hid
          simp [Board.apply] at hc
        · exact h.comment id c (by simpa [Board.apply, hid] using hc)

end Invariant

/-- **Refinement along runs**: the database represents the board of the updates so far. -/
theorem invariant_of_run {us : List Update} {os : List Unit} {d : Database}
    (h : Database.machine.Run .empty us os d) : Invariant d (boardOf us) := by
  refine h.history (P := fun us _ d => Invariant d (boardOf us)) invariant_empty ?_
  intro us os d u o d' _ ih hs
  rw [boardOf_snoc, ih.step_eq hs]
  exact ih.step hs.1

/-! ### Reading a represented board back -/

section reading
variable {d : Database} {b : Board}

/-- The entries of the `Posts` node are the posts of the board. -/
theorem Invariant.mem_posts_iff (h : Invariant d b) {id : String} {v : Json} :
    (id, v) ∈ (d.tree.get ["Posts"]).entries ↔ ∃ p, b.posts id = some p ∧ v = p.stored := by
  rw [Tree.mem_entries_iff]
  simp only [List.cons_append, List.nil_append, h.represents.posts id]
  cases hp : b.posts id with
  | none =>
      simp only [Option.elim_none, reduceCtorEq, false_and, exists_false, iff_false, not_and,
        not_not]
      exact fun hv => hv.symm
  | some p =>
      simp only [Option.elim_some, Option.some.injEq, exists_eq_left']
      constructor
      · exact fun hv => hv.1.symm
      · rintro rfl
        exact ⟨rfl, (h.post id p hp).2.2.stored_ne_null⟩

/-- The keys below `Comments` are the posts with comments on the board. -/
theorem Invariant.mem_comments_keys_iff (h : Invariant d b) {id : String} :
    id ∈ (d.tree.get ["Comments"]).entries.map Prod.fst ↔ b.comments id ≠ [] := by
  obtain ⟨kvs, hk, hp⟩ := h.represents.comments id
  have hnil : kvs = [] ↔ b.comments id = [] := by
    constructor
    · rintro rfl
      simpa using hp.symm.eq_nil
    · intro hb
      rw [hb] at hp
      exact hp.eq_nil
  rw [ne_eq, ← hnil, ← Json.ofEntries_eq_null, ← hk]
  constructor
  · intro hm
    obtain ⟨⟨k, v⟩, he, rfl⟩ := List.mem_map.mp hm
    rw [Tree.mem_entries_iff] at he
    rw [show (["Comments", k] : Path) = ["Comments"] ++ [k] from rfl, he.1]
    exact he.2
  · intro hne
    exact List.mem_map.mpr ⟨(id, d.tree.get ["Comments", id]),
      (Tree.mem_entries_iff ..).mpr ⟨rfl, hne⟩, rfl⟩

/-- **Decoding an enumeration of the `Posts` node** gives every post of the board once. -/
theorem Invariant.decodePosts (h : Invariant d b) {records : List (String × Json)}
    (hr : records.Perm (d.tree.get ["Posts"]).entries) :
    (PostController.decodePosts records).map Post.id = records.map (fun e => some e.1) ∧
      ∀ p, p ∈ PostController.decodePosts records ↔
        ∃ id q, b.posts id = some q ∧ p = q.readBack := by
  have hdec : ∀ e ∈ records, ∃ q, b.posts e.1 = some q ∧
      (e.2.asObject >>= Post.initDictionary) = some q.readBack := by
    intro e he
    obtain ⟨q, hq, hv⟩ := h.mem_posts_iff.mp (hr.mem_iff.mp he)
    exact ⟨q, hq, hv ▸ (h.post _ q hq).2.2.decode_stored⟩
  constructor
  · clear hr
    induction records with
    | nil => rfl
    | cons e records ih =>
        obtain ⟨q, hq, he⟩ := hdec e List.mem_cons_self
        rw [PostController.decodePosts, List.filterMap_cons, he]
        simp only [List.map_cons, Post.readBack_id, (h.post _ q hq).2.1]
        exact congrArg _ (ih fun e he => hdec e (List.mem_cons_of_mem _ he))
  · intro p
    simp only [PostController.decodePosts, List.mem_filterMap]
    constructor
    · rintro ⟨e, he, hp⟩
      obtain ⟨q, hq, hd⟩ := hdec e he
      rw [hd] at hp
      exact ⟨e.1, q, hq, (Option.some.inj hp).symm⟩
    · rintro ⟨id, q, hq, rfl⟩
      exact ⟨(id, q.stored), hr.mem_iff.mpr (h.mem_posts_iff.mpr ⟨q, hq, rfl⟩),
        (h.post id q hq).2.2.decode_stored⟩

/-- **Decoding an enumeration of the comments of a post** gives their contents, each once. -/
theorem Invariant.decodeComments (h : Invariant d b) {id : String} {records : List (String × Json)}
    (hr : records.Perm ((b.comments id).map Comment.stored)) (uuid : ℕ → String) :
    ((CommentController.decodeComments uuid records).map Comment.content).Perm
      ((b.comments id).map Comment.content) := by
  have hcontent : ∀ (records : List (String × Json)) (n : ℕ),
      ((records.zipIdx n).filterMap fun c =>
        c.1.2.asObject >>= Comment.initDictionary (uuid c.2)).map Comment.content =
      records.filterMap fun e => (e.2.asObject >>= Comment.initDictionary "").map
        Comment.content := by
    intro records
    induction records with
    | nil => exact fun _ => rfl
    | cons e records ih =>
        intro n
        have he : (e.2.asObject >>= Comment.initDictionary (uuid n)).map Comment.content =
            (e.2.asObject >>= Comment.initDictionary "").map Comment.content := by
          cases e.2.asObject with
          | none => rfl
          | some kvs => exact Comment.content_initDictionary _ _ kvs
        rw [List.zipIdx_cons, List.filterMap_cons, List.filterMap_cons, ← ih (n + 1), ← he]
        cases e.2.asObject >>= Comment.initDictionary (uuid n) <;> rfl
  rw [CommentController.decodeComments, hcontent]
  refine (hr.filterMap _).trans ?_
  rw [List.filterMap_map, ← List.filterMap_eq_map]
  refine List.Perm.of_eq (List.filterMap_congr ?_)
  intro c hc
  obtain ⟨-, -, u, -, hcu⟩ := h.comment id c hc
  simp only [Function.comp, c.decode_stored (by rw [hcu]; rfl) ""]
  rfl

end reading
end ZipR
