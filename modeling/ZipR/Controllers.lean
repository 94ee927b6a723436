import ZipR.Models
import Mathlib.Tactic.Linarith
import Mathlib.Algebra.Order.Group.Abs

/-! # The controllers

`PostController.swift` and `CommentController.swift` over the Realtime Database.

* **References.** `child` is `DatabaseReference.child(_:)`: it throws on a path string that is
  empty or has one of the characters `[].#$`, and splits the others at `/`.  `isValidKey` are the
  strings that are one path component; UUIDs are.
* **Writes.** `createPost`, `createComment`, `removePost` and `removeComments` return the write
  they send.  `deletePostandItsComments` sends the last two, one after the other.
* **Reads.** A fetch clears what it has (`fetchPosts`) and later handles one `Answer`, whose
  dictionary is the Swift one (`fetchPostsAnswered`); the returned list holds the arguments of the
  completion calls it makes.
* **Feeds.** `parsePosts` and `filterPostsByUserandDate` select and sort.  Sorting by date
  force-unwraps `Double(date)`, hence the `Except`.  `Kept` is the area test as the code computes
  it, `InArea` the area it means (`kept_iff_inArea`). -/

namespace ZipR

open JsonTree

/-! ### Database references -/

def invalidPathCharacters : List Char := ['[', ']', '.', '#', '$']

def isValidPathString (pathString : String) : Bool :=
  pathString ≠ "" && pathString.toList.all fun c => !invalidPathCharacters.contains c

def isValidKey (key : String) : Bool :=
  key ≠ "" && key.toList.all fun c => !invalidPathCharacters.contains c && c ≠ '/'

/-- The non-empty pieces between slashes. -/
def pathPieces (pathString : String) : Path :=
  ((pathString.toList.splitOn '/').filter (· ≠ [])).map String.ofList

def child (ref : Path) (pathString : String) : Except Trap Path :=
  if isValidPathString pathString then .ok (ref ++ pathPieces pathString) else .error .invalidPath

theorem pathPieces_of_isValidKey {key : String} (h : isValidKey key = true) :
    pathPieces key = [key] := by
  simp only [isValidKey, Bool.and_eq_true, decide_eq_true_eq, List.all_eq_true, ne_eq] at h
  obtain ⟨hne, hall⟩ := h
  have hslash : '/' ∉ key.toList := fun hm => (hall _ hm).2 rfl
  have hnil : key.toList ≠ [] := fun he => hne (String.toList_eq_nil_iff.mp he)
  rw [pathPieces, List.splitOn_eq_singleton hslash]
  simp [hnil]

theorem child_of_isValidKey {key : String} (h : isValidKey key = true) (ref : Path) :
    child ref key = .ok (ref ++ [key]) := by
  have hpath : isValidPathString key = true := by
    simp only [isValidKey, isValidPathString, Bool.and_eq_true, List.all_eq_true] at h ⊢
    exact ⟨h.1, fun c hc => (h.2 c hc).1⟩
  rw [child, if_pos hpath, pathPieces_of_isValidKey h]

theorem map_child_eq_error {α : Type} {f : Path → α} {ref : Path} {pathString : String} {e : Trap}
    (h : (child ref pathString).map f = .error e) : e = .invalidPath := by
  unfold child at h
  split at h
  · cases h
  · exact (Except.error.inj h).symm

@[simp] theorem child_Posts : child [] "Posts" = .ok ["Posts"] := by decide
@[simp] theorem child_Comments : child [] "Comments" = .ok ["Comments"] := by decide

inductive Write where
  | setValue (ref : Path) (value : Json)
  | removeValue (ref : Path)

namespace Write

/-- The effect on the stored tree. -/
def apply (t : Tree) : Write → Tree
  | setValue ref value => t.update ref value
  | removeValue ref => t.update ref .null

end Write

/-- What a single-event read is answered with. -/
inductive Answer where
  | value (snapshot : Json)
  | cancelled

/-- `x!`. -/
def unwrap {α : Type} : Option α → Except Trap α
  | some a => .ok a
  | none => .error .unexpectedlyNil

/-! ### Posts -/

/-- The arguments of `createPost`. -/
structure NewPost where
  author : String
  title : String
  description : String
  tag : List String
  lat : String
  long : String
  date : String
deriving DecidableEq, Repr

/-- The post `createPost` builds. -/
def NewPost.post (uuid : String) (new : NewPost) : Post :=
  Post.init uuid new.author new.title new.description new.tag new.long new.lat none new.date

theorem NewPost.post_complete (uuid : String) (new : NewPost) : (new.post uuid).Complete :=
  Post.init_complete ..

@[simp] theorem NewPost.post_id (uuid : String) (new : NewPost) :
    (new.post uuid).id = some uuid := rfl

structure PostController where
  user : Option CurrentUser
  posts : List Post

namespace PostController

/-- `PostController()`. -/
def new : PostController := ⟨none, []⟩

def createPost (uuid : String) (new : NewPost) : Except Trap Write := do
  let post := new.post uuid
  let posts ← child [] "Posts"
  let ref ← child posts (post.id.getD uuid)
  let dictionary ← post.dictionaryRepresentation
  return .setValue ref (.object dictionary)

/-- The records of a snapshot that decode, in the order in which they are met. -/
def decodePosts (records : List (String × Json)) : List Post :=
  records.filterMap fun p => p.2.asObject >>= Post.initDictionary

/-- Issuing a fetch. -/
def fetchPosts (self : PostController) : PostController := { self with posts := [] }

/-- The callback of `observeSingleEvent`; without a cancel block a cancellation is dropped. -/
def fetchPostsAnswered (self : PostController) :
    Answer → PostController × List (Option String)
  | .cancelled => (self, [])
  | .value snapshot =>
      match snapshot.asObject with
      | none => (self, [])
      | some records => ({ self with posts := decodePosts records }, [none])

def removePost (postId : String) : Except Trap Write := do
  let posts ← child [] "Posts"
  let ref ← child posts postId
  return .removeValue ref

def removeComments (postId : String) : Except Trap Write := do
  let comments ← child [] "Comments"
  let ref ← child comments postId
  return .removeValue ref

theorem removePost_eq (postId : String) :
    removePost postId = (child ["Posts"] postId).map .removeValue := by
  simp only [removePost, child_Posts, bind, Except.bind]
  cases child ["Posts"] postId <;> rfl

theorem removeComments_eq (postId : String) :
    removeComments postId = (child ["Comments"] postId).map .removeValue := by
  simp only [removeComments, child_Comments, bind, Except.bind]
  cases child ["Comments"] postId <;> rfl

end PostController

section feeds
variable (P : Platform)

def orderPostsByDate (posts : List Post) : Except Trap (List Post) :=
  P.sorter.sorted (fun a b => do
    let x ← unwrap (P.double a.date)
    let y ← unwrap (P.double b.date)
    return decide (x > y)) posts

/-- The body of the loop in `parsePosts`: `none` is its early `return []`. -/
def parseLoop (usersLat usersLong : Double) : List Post → List Post → Option (List Post)
  | [], parsedPosts => some parsedPosts
  | post :: posts, parsedPosts =>
      match post.lat.bind P.double, post.long.bind P.double with
      | some postLat, some postLong =>
          if (postLat ≤ P.rounding.add usersLat (.finite 1) ∧
                postLat ≥ P.rounding.sub usersLat (.finite 1)) ∧
              (postLong ≤ P.rounding.add usersLong (.finite 1) ∧
                postLong ≥ P.rounding.sub usersLong (.finite 1)) then
            parseLoop usersLat usersLong posts (parsedPosts ++ [post])
          else parseLoop usersLat usersLong posts parsedPosts
      | _, _ => none

def PostController.parsePosts (self : PostController) (lat long : String) :
    Except Trap (List Post) :=
  match P.double lat, P.double long with
  | some usersLat, some usersLong =>
      match parseLoop P usersLat usersLong self.posts [] with
      | some parsedPosts => orderPostsByDate P parsedPosts
      | none => .ok []
  | _, _ => .ok []

def filterPostsByUserandDate (posts : List Post) (userName : String) : Except Trap (List Post) :=
  orderPostsByDate P (posts.filter fun p => P.same p.author userName)

/-! What the selections return. -/

/-- The post passes the comparisons with the location, as `Double` computes them. -/
def Kept (usersLat usersLong : Double) (p : Post) : Prop :=
  ∃ lat long, p.lat.bind P.double = some lat ∧ p.long.bind P.double = some long ∧
    (lat ≤ P.rounding.add usersLat (.finite 1) ∧ lat ≥ P.rounding.sub usersLat (.finite 1)) ∧
    (long ≤ P.rounding.add usersLong (.finite 1) ∧ long ≥ P.rounding.sub usersLong (.finite 1))

/-- The post lies within one degree of the location, in both coordinates. -/
def InArea (usersLat usersLong : ℚ) (p : Post) : Prop :=
  ∃ lat long, p.lat.bind P.double = some (.finite lat) ∧
    p.long.bind P.double = some (.finite long) ∧ |lat - usersLat| ≤ 1 ∧ |long - usersLong| ≤ 1

/-- Both coordinates of the post are numbers. -/
def Located (p : Post) : Prop :=
  (p.lat.bind P.double).isSome ∧ (p.long.bind P.double).isSome

/-- The date of the post is a number. -/
def Dated (p : Post) : Prop := (P.double p.date).isSome

/-- The date as a number, NaN where it is none. -/
def dateValue (p : Post) : Double := (P.double p.date).getD .nan

/-- The date of the post is a number other than NaN. -/
def Timed (p : Post) : Prop := dateValue P p ≠ .nan

/-- Later dates come first. -/
def NewestFirst (posts : List Post) : Prop :=
  posts.Pairwise fun a b => dateValue P b ≤ dateValue P a

instance (usersLat usersLong : Double) (p : Post) : Decidable (Kept P usersLat usersLong p) :=
  match hlat : p.lat.bind P.double, hlong : p.long.bind P.double with
  | some lat, some long =>
      decidable_of_iff ((lat ≤ P.rounding.add usersLat (.finite 1) ∧
          lat ≥ P.rounding.sub usersLat (.finite 1)) ∧
        (long ≤ P.rounding.add usersLong (.finite 1) ∧
          long ≥ P.rounding.sub usersLong (.finite 1))) (by simp [Kept, hlat, hlong])
  | some _, none => isFalse (by simp [Kept, hlong])
  | none, _ => isFalse (by simp [Kept, hlat])

instance (usersLat usersLong : ℚ) (p : Post) : Decidable (InArea P usersLat usersLong p) :=
  match hlat : p.lat.bind P.double, hlong : p.long.bind P.double with
  | some (.finite lat), some (.finite long) =>
      decidable_of_iff (|lat - usersLat| ≤ 1 ∧ |long - usersLong| ≤ 1) (by
        simp [InArea, hlat, hlong])
  | some (.finite _), some .nan | some (.finite _), some (.infinity _) | some (.finite _), none =>
      isFalse (by simp [InArea, hlong])
  | some .nan, _ | some (.infinity _), _ | none, _ => isFalse (by simp [InArea, hlat])

variable {P}

theorem dateValue_of_eq {p : Post} {x : Double} (h : P.double p.date = some x) :
    dateValue P p = x := by
  simp [dateValue, h]

theorem Timed.dated {p : Post} (h : Timed P p) : Dated P p := by
  unfold Timed dateValue at h
  unfold Dated
  cases hd : P.double p.date with
  | none =>
      rw [hd] at h
      exact absurd rfl h
  | some x => rfl

/-- The comparator on dates that are numbers. -/
theorem compareDates_of_dated {a b : Post} (ha : Dated P a) (hb : Dated P b) :
    (do
      let x ← unwrap (P.double a.date)
      let y ← unwrap (P.double b.date)
      return decide (x > y) : Except Trap Bool) = .ok (decide (dateValue P a > dateValue P b)) := by
  obtain ⟨x, hx⟩ := Option.isSome_iff_exists.mp ha
  obtain ⟨y, hy⟩ := Option.isSome_iff_exists.mp hb
  rw [hx, hy, dateValue_of_eq hx, dateValue_of_eq hy]
  rfl

/-- **Sorting dates other than NaN never traps** and returns the posts, newest first. -/
theorem orderPostsByDate_of_timed {posts : List Post} (h : ∀ p ∈ posts, Timed P p) :
    ∃ ordered, orderPostsByDate P posts = .ok ordered ∧ ordered.Perm posts ∧
      NewestFirst P ordered := by
  have hcmp : ∀ a ∈ posts, ∀ b ∈ posts, (do
      let x ← unwrap (P.double a.date)
      let y ← unwrap (P.double b.date)
      return decide (x > y) : Except Trap Bool) =
        .ok (decide ((dateValue P a).key > (dateValue P b).key)) := by
    intro a ha b hb
    rw [compareDates_of_dated (h a ha).dated (h b hb).dated]
    congr 2
    exact propext (FloatingPoint.Value.lt_iff_key (h b hb) (h a ha))
  obtain ⟨ordered, hs, hp, hord⟩ := P.sorter.sorted_total
    (PartialSort.strictWeak_of_key fun p => (dateValue P p).key) hcmp
  refine ⟨ordered, hs, hp, hord.imp_of_mem fun {a b} ha hb hab => ?_⟩
  rw [FloatingPoint.Value.le_iff_key (h b (hp.mem_iff.mp hb)) (h a (hp.mem_iff.mp ha))]
  simpa using hab

/-- Sorting a longer list with an unparseable date traps. -/
theorem orderPostsByDate_trap {posts : List Post} {p : Post} (hp : p ∈ posts) (hnot : ¬ Dated P p)
    (hlen : 2 ≤ posts.length) : ∃ e, orderPostsByDate P posts = .error e := by
  have hnone : P.double p.date = none := by simpa [Dated] using hnot
  refine P.sorter.sorted_trap _ hp hlen fun y _ => ?_
  rw [hnone]
  refine ⟨⟨_, rfl⟩, ?_⟩
  cases P.double y.date <;> exact ⟨_, rfl⟩

/-- **Which lists are sorted without a trap.** -/
theorem orderPostsByDate_ok_iff {posts : List Post} :
    (∃ ordered, orderPostsByDate P posts = .ok ordered) ↔
      posts.length ≤ 1 ∨ ∀ p ∈ posts, Dated P p := by
  constructor
  · rintro ⟨ordered, hok⟩
    by_contra hnot
    push Not at hnot
    obtain ⟨hlen, p, hp, hdate⟩ := hnot
    obtain ⟨e, he⟩ := orderPostsByDate_trap hp hdate hlen
    rw [hok] at he
    cases he
  · rintro (hlen | hdate)
    · exact ⟨posts, P.sorter.sorted_short _ _ hlen⟩
    · exact P.sorter.sorted_ok _ fun a ha b hb => ⟨_, compareDates_of_dated (hdate a ha) (hdate b hb)⟩

/-- A sort that ends has lost no post. -/
theorem orderPostsByDate_perm {posts ordered : List Post}
    (h : orderPostsByDate P posts = .ok ordered) : ordered.Perm posts :=
  P.sorter.sorted_perm _ h

theorem filterPostsByUserandDate_perm {posts filtered : List Post} {userName : String}
    (h : filterPostsByUserandDate P posts userName = .ok filtered) :
    filtered.Perm (posts.filter fun p => P.same p.author userName) :=
  orderPostsByDate_perm h

/-- The loop keeps posts it was given. -/
theorem parseLoop_subset {usersLat usersLong : Double} {posts parsedPosts parsed : List Post}
    (h : parseLoop P usersLat usersLong posts parsedPosts = some parsed) :
    ∀ p ∈ parsed, p ∈ parsedPosts ∨ p ∈ posts := by
  induction posts generalizing parsedPosts with
  | nil =>
      obtain rfl : parsedPosts = parsed := Option.some.inj h
      exact fun p hp => .inl hp
  | cons post posts ih =>
      intro p hp
      rw [parseLoop] at h
      split at h
      · split at h
        · rcases ih h p hp with hp | hp
          · rcases List.mem_append.mp hp with hp | hp
            · exact .inl hp
            · exact .inr (List.mem_cons.mpr (.inl (List.mem_singleton.mp hp)))
          · exact .inr (List.mem_cons_of_mem _ hp)
        · exact (ih h p hp).imp_right (List.mem_cons_of_mem _)
      · cases h

/-- The feed shows fetched posts only. -/
theorem parsePosts_subset {self : PostController} {lat long : String} {feed : List Post}
    (h : self.parsePosts P lat long = .ok feed) : ∀ p ∈ feed, p ∈ self.posts := by
  intro p hp
  unfold PostController.parsePosts at h
  split at h
  · split at h
    · have hparsed := (orderPostsByDate_perm h).mem_iff.mp hp
      exact (parseLoop_subset ‹_› p hparsed).resolve_left (by simp)
    · obtain rfl := Except.ok.inj h
      cases hp
  · obtain rfl := Except.ok.inj h
    cases hp

/-- The loop appends the posts it keeps to what it has. -/
theorem parseLoop_of_located {usersLat usersLong : Double} {posts : List Post}
    (h : ∀ p ∈ posts, Located P p) (parsedPosts : List Post) :
    parseLoop P usersLat usersLong posts parsedPosts =
      some (parsedPosts ++ posts.filter (fun p => Kept P usersLat usersLong p)) := by
  induction posts generalizing parsedPosts with
  | nil => simp [parseLoop]
  | cons post posts ih =>
      obtain ⟨hlat, hlong⟩ := h post List.mem_cons_self
      obtain ⟨lat, hlat⟩ := Option.isSome_iff_exists.mp hlat
      obtain ⟨long, hlong⟩ := Option.isSome_iff_exists.mp hlong
      have ih' := ih fun p hp => h p (List.mem_cons_of_mem _ hp)
      simp only [parseLoop, hlat, hlong]
      by_cases hin : Kept P usersLat usersLong post
      · have htest := hin
        simp only [Kept, hlat, hlong, Option.some.injEq, exists_and_left, exists_eq_left'] at htest
        rw [if_pos htest, ih', List.filter_cons_of_pos (by simpa using hin)]
        simp
      · have htest := hin
        simp only [Kept, hlat, hlong, Option.some.injEq, exists_and_left, exists_eq_left'] at htest
        rw [if_neg htest, ih', List.filter_cons_of_neg (by simpa using hin)]

/-- Without a location there is no feed. -/
theorem parsePosts_of_unknown (self : PostController) {lat long : String}
    (h : ¬ ∃ usersLat usersLong, P.double lat = some usersLat ∧ P.double long = some usersLong) :
    self.parsePosts P lat long = .ok [] := by
  unfold PostController.parsePosts
  split
  · rename_i usersLat usersLong hlat hlong
    exact absurd ⟨usersLat, usersLong, hlat, hlong⟩ h
  · rfl

/-- The feed of located posts: those the comparisons keep, sorted. -/
theorem parsePosts_of_located (self : PostController) {lat long : String}
    {usersLat usersLong : Double} (hlat : P.double lat = some usersLat)
    (hlong : P.double long = some usersLong) (hloc : ∀ p ∈ self.posts, Located P p) :
    self.parsePosts P lat long =
      orderPostsByDate P (self.posts.filter fun p => Kept P usersLat usersLong p) := by
  rw [PostController.parsePosts, hlat, hlong]
  simp only [parseLoop_of_located hloc, List.nil_append]

/-- **Where numbers are exact, the comparisons keep the posts in the area.** -/
theorem kept_iff_inArea (hP : P.Exact) {usersLat usersLong : ℚ} {p : Post} :
    Kept P (.finite usersLat) (.finite usersLong) p ↔ InArea P usersLat usersLong p := by
  unfold Kept InArea
  constructor
  · rintro ⟨lat, long, hlat, hlong, ⟨h₁, h₂⟩, h₃, h₄⟩
    obtain ⟨s, -, hs⟩ := Option.bind_eq_some_iff.mp hlat
    obtain ⟨t, -, ht⟩ := Option.bind_eq_some_iff.mp hlong
    obtain ⟨lat, rfl⟩ := hP.double _ _ hs
    obtain ⟨long, rfl⟩ := hP.double _ _ ht
    simp only [FloatingPoint.Rounding.add_finite, FloatingPoint.Rounding.sub_finite, hP.round,
      ge_iff_le, FloatingPoint.Value.finite_le_finite] at h₁ h₂ h₃ h₄
    refine ⟨lat, long, hlat, hlong, ?_, ?_⟩ <;> rw [abs_le] <;> constructor <;> linarith
  · rintro ⟨lat, long, hlat, hlong, h₁, h₂⟩
    rw [abs_le] at h₁ h₂
    refine ⟨_, _, hlat, hlong, ?_⟩
    simp only [FloatingPoint.Rounding.add_finite, FloatingPoint.Rounding.sub_finite, hP.round,
      ge_iff_le, FloatingPoint.Value.finite_le_finite]
    refine ⟨⟨?_, ?_⟩, ?_, ?_⟩ <;> linarith

end feeds

/-! ### Comments -/

namespace CommentController

def createComment (uuid author description postID : String) : Except Trap Write := do
  let comment := Comment.init uuid author description none postID
  let comments ← child [] "Comments"
  let post ← child comments comment.postID
  let ref ← child post (comment.id.getD uuid)
  let dictionary ← comment.dictionaryRepresentation
  return .setValue ref (.object dictionary)

/-- The records that decode; the `i`-th record met draws the UUID `uuid i`. -/
def decodeComments (uuid : ℕ → String) (records : List (String × Json)) : List Comment :=
  records.zipIdx.filterMap fun c => c.1.2.asObject >>= Comment.initDictionary (uuid c.2)

/-- The callback of `fetchCommentsforPost`: the arguments of the completion calls it makes. -/
def fetchCommentsforPostAnswered (uuid : ℕ → String) : Answer → List (Option (List Comment))
  | .cancelled => []
  | .value snapshot =>
      match snapshot.asObject with
      | none => [none]
      | some records => [some (decodeComments uuid records)]

end CommentController
end ZipR
