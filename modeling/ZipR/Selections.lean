import Mathlib.Data.List.Pairwise
import ZipR.Controllers

/-! # The feeds of arbitrary snapshots

What `parsePosts` and `filterPostsByUserandDate` make of the posts `fetchPosts` decodes, whatever
the `Posts` node holds.

* **Records.** A record decodes without a date, and with coordinates that are no numbers.  The
  first makes a sort trap as soon as another record is selected with it (`feeds_safe_iff`), the
  second empties the feed (`parsePosts_complete_iff`).
* **Area.** With exact numbers the four comparisons are a distance in the plane;
  `parsePosts_keeps_iff` compares it with the distance on the globe.
* **Order.** A dictionary is enumerated in any order.  Where no two dates are equal, the feeds do
  not show it, unless a selected date is NaN (`feeds_order_independent_iff`). -/

namespace ZipR

open JsonTree

variable {P : Platform}

/-! ### Records -/

/-- The records of a snapshot, none where it is no dictionary. -/
def snapshotRecords (snapshot : Json) : List (String × Json) := snapshot.asObject.getD []

theorem snapshotRecords_ofEntries (kvs : List (String × Json)) :
    snapshotRecords (.ofEntries kvs) = kvs := by
  cases kvs <;> rfl

/-- A record as a post. -/
def recordPost (record : String × Json) : Option Post :=
  record.2.asObject >>= Post.initDictionary

/-- The controller after a fetch was answered with a snapshot. -/
def PostController.fetched (self : PostController) (snapshot : Json) : PostController :=
  (self.fetchPosts.fetchPostsAnswered (.value snapshot)).1

theorem PostController.fetched_posts (self : PostController) (snapshot : Json) :
    (self.fetched snapshot).posts = decodePosts (snapshotRecords snapshot) := by
  unfold fetched snapshotRecords
  simp only [fetchPostsAnswered]
  cases snapshot.asObject <;> rfl

theorem mem_decodePosts {records : List (String × Json)} {p : Post} :
    p ∈ PostController.decodePosts records ↔ ∃ r ∈ records, recordPost r = some p :=
  List.mem_filterMap

/-- The selected posts, one record taken out. -/
theorem filter_decodePosts_perm {Q : Post → Prop} [DecidablePred Q] {r : String × Json} {p : Post}
    {records rest : List (String × Json)} (h : records.Perm (r :: rest))
    (hr : recordPost r = some p) (hp : Q p) :
    ((PostController.decodePosts records).filter Q).Perm
      (p :: (PostController.decodePosts rest).filter Q) := by
  have hdecode :
      (PostController.decodePosts records).Perm (p :: PostController.decodePosts rest) := by
    have hall := h.filterMap recordPost
    rwa [List.filterMap_cons_some hr] at hall
  have hfilter := hdecode.filter Q
  rwa [List.filter_cons_of_pos (by simpa using hp)] at hfilter

/-! ### Dates that are no numbers -/

section traps
variable (P)

/-- A record whose post `Q` selects has a date that is no number, and `Q` selects the post of another
record. -/
def Clash (Q : Post → Prop) (records : List (String × Json)) : Prop :=
  ∃ pre r post, records = pre ++ r :: post ∧ (∃ p, recordPost r = some p ∧ Q p ∧ ¬ Dated P p) ∧
    ∃ s ∈ pre ++ post, ∃ q, recordPost s = some q ∧ Q q

end traps

/-- Sorting the selected posts ends without a trap unless two records clash. -/
theorem orderPostsByDate_filter_ok_iff (Q : Post → Prop) [DecidablePred Q]
    (records : List (String × Json)) :
    (∃ ordered, orderPostsByDate P ((PostController.decodePosts records).filter Q) = .ok ordered) ↔
      ¬ Clash P Q records := by
  rw [orderPostsByDate_ok_iff, iff_not_comm, not_or]
  constructor
  · rintro ⟨pre, r, post, rfl, ⟨p, hr, hp, hdate⟩, s, hs, q, hs', hq⟩
    have hmiddle : (pre ++ r :: post).Perm (r :: (pre ++ post)) := List.perm_middle
    have hsplit := filter_decodePosts_perm hmiddle hr hp
    have hother : q ∈ (PostController.decodePosts (pre ++ post)).filter Q :=
      List.mem_filter.mpr ⟨mem_decodePosts.mpr ⟨s, hs, hs'⟩, by simpa using hq⟩
    refine ⟨?_, ?_⟩
    · have hpos := List.length_pos_of_mem hother
      rw [hsplit.length_eq, List.length_cons]
      omega
    · intro hall
      exact hdate (hall p (hsplit.mem_iff.mpr List.mem_cons_self))
  · rintro ⟨hlength, hdate⟩
    push Not at hdate
    obtain ⟨p, hmem, hdate⟩ := hdate
    obtain ⟨hmem, hp⟩ := List.mem_filter.mp hmem
    have hp : Q p := by simpa using hp
    obtain ⟨r, hr, hrp⟩ := mem_decodePosts.mp hmem
    obtain ⟨pre, post, rfl⟩ := List.append_of_mem hr
    rw [(filter_decodePosts_perm List.perm_middle hrp hp).length_eq, List.length_cons] at hlength
    obtain ⟨q, hq⟩ := List.exists_mem_of_length_pos
      (l := (PostController.decodePosts (pre ++ post)).filter Q) (by omega)
    obtain ⟨hq, hQ⟩ := List.mem_filter.mp hq
    obtain ⟨s, hs, hsq⟩ := mem_decodePosts.mp hq
    exact ⟨pre, r, post, rfl, ⟨p, hrp, hp, hdate⟩, s, hs, q, hsq, by simpa using hQ⟩

/-! ### Coordinates that are no numbers -/

/-- The loop returns early at a post that is not located. -/
theorem parseLoop_of_not_located {usersLat usersLong : Double} {posts : List Post}
    (h : ¬ ∀ p ∈ posts, Located P p) (parsedPosts : List Post) :
    parseLoop P usersLat usersLong posts parsedPosts = none := by
  induction posts generalizing parsedPosts with
  | nil => exact absurd (by simp) h
  | cons post posts ih =>
      rw [parseLoop]
      split
      · rename_i postLat postLong hlat hlong
        have hpost : Located P post := ⟨by simp [hlat], by simp [hlong]⟩
        have hrest : ¬ ∀ p ∈ posts, Located P p := fun hall =>
          h (List.forall_mem_cons.mpr ⟨hpost, hall⟩)
        split
        · exact ih hrest _
        · exact ih hrest _
      · rfl

/-- The feed: nothing once some post is not located, else the posts kept, sorted. -/
theorem parsePosts_eq (self : PostController) {lat long : String} {usersLat usersLong : Double}
    (hlat : P.double lat = some usersLat) (hlong : P.double long = some usersLong) :
    ((∀ p ∈ self.posts, Located P p) ∧ self.parsePosts P lat long =
      orderPostsByDate P (self.posts.filter fun p => Kept P usersLat usersLong p)) ∨
    ((¬ ∀ p ∈ self.posts, Located P p) ∧ self.parsePosts P lat long = .ok []) := by
  by_cases hloc : ∀ p ∈ self.posts, Located P p
  · exact .inl ⟨hloc, parsePosts_of_located self hlat hlong hloc⟩
  · refine .inr ⟨hloc, ?_⟩
    unfold PostController.parsePosts
    rw [hlat, hlong]
    simp only [parseLoop_of_not_located hloc]

/-! ### What the feeds are -/

theorem forall_decodePosts {records : List (String × Json)} {Q : Post → Prop} :
    (∀ p ∈ PostController.decodePosts records, Q p) ↔
      ∀ r ∈ records, ∀ p, recordPost r = some p → Q p := by
  constructor
  · intro h r hr p hp
    exact h p (mem_decodePosts.mpr ⟨r, hr, hp⟩)
  · intro h p hp
    obtain ⟨r, hr, hrp⟩ := mem_decodePosts.mp hp
    exact h r hr p hrp

variable (P) in
/-- **When the feeds trap.**  After a fetch was answered with any snapshot, `parsePosts` ends
without a trap unless the user is located, every record that decodes is located, and two records
kept for the user's location clash; `filterPostsByUserandDate` does unless two records of the author
clash. -/
theorem feeds_safe_iff (self : PostController) (snapshot : Json) (lat long userName : String) :
    ((∃ feed, (self.fetched snapshot).parsePosts P lat long = .ok feed) ↔
      ¬ ∃ usersLat usersLong, P.double lat = some usersLat ∧ P.double long = some usersLong ∧
        (∀ r ∈ snapshotRecords snapshot, ∀ p, recordPost r = some p → Located P p) ∧
        Clash P (Kept P usersLat usersLong) (snapshotRecords snapshot)) ∧
    ((∃ posts, filterPostsByUserandDate P (self.fetched snapshot).posts userName = .ok posts) ↔
      ¬ Clash P (fun p => P.same p.author userName) (snapshotRecords snapshot)) := by
  refine ⟨?_, ?_⟩
  · by_cases hknown : ∃ x y, P.double lat = some x ∧ P.double long = some y
    · obtain ⟨usersLat, usersLong, hlat, hlong⟩ := hknown
      have hfeed := parsePosts_eq (self.fetched snapshot) hlat hlong
      rw [self.fetched_posts snapshot, forall_decodePosts] at hfeed
      simp only [hlat, hlong, Option.some.injEq, exists_and_left, exists_eq_left', not_and]
      rcases hfeed with ⟨hloc, hfeed⟩ | ⟨hloc, hfeed⟩
      · rw [hfeed, orderPostsByDate_filter_ok_iff]
        exact ⟨fun h _ => h, fun h => h hloc⟩
      · exact iff_of_true ⟨[], hfeed⟩ fun h => absurd h hloc
    · refine iff_of_true ⟨[], parsePosts_of_unknown _ hknown⟩ ?_
      rintro ⟨x, y, hlat, hlong, -⟩
      exact hknown ⟨x, y, hlat, hlong⟩
  · rw [filterPostsByUserandDate, self.fetched_posts snapshot, orderPostsByDate_filter_ok_iff]

/-- A record that decodes without a date. -/
def undatedRecord (id author : String) : String × Json :=
  (id, .object [("author", .string author), ("description", .string ""), ("id", .string id),
    ("latitude", .string "10"), ("longitude", .string "20"), ("title", .string "")])

/-- The second author writes the accent as a character of its own. -/
def undatedRecords : List (String × Json) :=
  [undatedRecord "p" "é", undatedRecord "q" (String.ofList ['e', Char.ofNat 0x301])]

theorem undated_traps :
    (PostController.new.fetched (.object undatedRecords)).parsePosts .binary64 "10" "20" =
      .error .unexpectedlyNil ∧
    filterPostsByUserandDate .binary64 (PostController.new.fetched (.object undatedRecords)).posts
      "é" = .error .unexpectedlyNil := by decide +kernel

/-- What is kept is not symmetric: one and a tenth is kept around a tenth, but not the other way
round. -/
example :
    Kept .binary64 (.finite (3602879701896397 / 36028797018963968)) (.finite 0)
      (Post.init "" "" "" "" [] "0" "1.1" none "") ∧
    ¬ Kept .binary64 (.finite (2476979795053773 / 2251799813685248)) (.finite 0)
      (Post.init "" "" "" "" [] "0" "0.1" none "") := by decide +kernel

/-- **When the feed is complete.**  With exact numbers, the feed of dated posts has exactly the posts
in the area, if and only if every post is located or none is in the area. -/
theorem parsePosts_complete_iff (hP : P.Exact) (self : PostController) {lat long : String}
    {usersLat usersLong : ℚ} (hlat : P.double lat = some (.finite usersLat))
    (hlong : P.double long = some (.finite usersLong)) (hdate : ∀ p ∈ self.posts, Dated P p) :
    (∃ feed, self.parsePosts P lat long = .ok feed ∧
      feed.Perm (self.posts.filter fun p => InArea P usersLat usersLong p)) ↔
      (∀ p ∈ self.posts, Located P p) ∨ ∀ p ∈ self.posts, ¬ InArea P usersLat usersLong p := by
  rcases parsePosts_eq self hlat hlong with ⟨hloc, hfeed⟩ | ⟨hloc, hfeed⟩
  · simp only [kept_iff_inArea hP] at hfeed
    obtain ⟨feed, hok⟩ := orderPostsByDate_ok_iff.mpr (.inr fun p hp =>
      hdate p (List.mem_of_mem_filter (p := fun p => InArea P usersLat usersLong p) hp))
    exact iff_of_true ⟨feed, hfeed.trans hok, orderPostsByDate_perm hok⟩ (.inl hloc)
  · rw [hfeed, or_iff_right hloc]
    constructor
    · rintro ⟨feed, hok, hp⟩
      obtain rfl := Except.ok.inj hok
      intro p hmem hin
      have hnil := hp.symm.eq_nil
      have hkept : p ∈ self.posts.filter fun p => InArea P usersLat usersLong p :=
        List.mem_filter.mpr ⟨hmem, by simpa using hin⟩
      rw [hnil] at hkept
      cases hkept
    · intro hout
      refine ⟨[], rfl, ?_⟩
      rw [List.filter_eq_nil_iff.mpr fun p hp => by simpa using hout p hp]

/-- A post of which only place and date matter. -/
def placedPost (lat long date : String) : Post := Post.init "" "" "" "" [] long lat (some "") date

theorem misplaced_empties :
    (∀ p ∈ [placedPost "10" "20" "1", placedPost "" "" "2"], Dated .decimal p) ∧
    InArea .decimal 10 20 (placedPost "10" "20" "1") ∧
    (PostController.mk none [placedPost "10" "20" "1", placedPost "" "" "2"]).parsePosts .decimal
      "10" "20" = .ok [] := by
  refine ⟨?_, ?_, ?_⟩
  · simp only [Dated]
    decide +kernel
  · decide +kernel
  · decide +kernel

theorem parsePosts_complete_sample : ∃ feed,
    (PostController.mk none [placedPost "10" "20" "1", placedPost "0" "0" "2"]).parsePosts .decimal
      "10" "20" = .ok feed ∧
    feed.Perm ([placedPost "10" "20" "1", placedPost "0" "0" "2"].filter fun p =>
      InArea .decimal 10 20 p) :=
  (parsePosts_complete_iff Platform.decimal_exact _ (by decide +kernel) (by decide +kernel) (by
    simp only [Dated]; decide +kernel)).mpr (.inl (by simp only [Located]; decide +kernel))

/-! ### The area on the globe -/

/-- Degrees of latitude and longitude. -/
structure OnGlobe (lat long : ℚ) : Prop where
  lat : -90 ≤ lat ∧ lat ≤ 90
  long : -180 ≤ long ∧ long ≤ 180

/-- At most `d` apart modulo `m`. -/
def NearModulo (m d a b : ℚ) : Prop := ∃ k : ℤ, |a - b + k * m| ≤ d

/-- The short way round is the plain difference, unless that is almost the whole circle. -/
theorem nearModulo_iff {a b : ℚ} (h : |a - b| < 359) : NearModulo 360 1 a b ↔ |a - b| ≤ 1 := by
  constructor
  · rintro ⟨k, hk⟩
    obtain ⟨h₁, h₂⟩ := abs_lt.mp h
    obtain ⟨h₃, h₄⟩ := abs_le.mp hk
    have hlt : (k : ℚ) < 1 := by linarith
    have hgt : (-1 : ℚ) < k := by linarith
    have hlt' : k < 1 := by exact_mod_cast hlt
    have hgt' : -1 < k := by exact_mod_cast hgt
    obtain rfl : k = 0 := by omega
    simpa using hk
  · intro h
    exact ⟨0, by simpa using h⟩

/-- **Which posts the feed keeps.**  With exact numbers, those within one degree of the user on the
globe, except across the 180th meridian, where the longitudes differ by 359 or more as numbers. -/
theorem parsePosts_keeps_iff (hP : P.Exact) (self : PostController) {lat long : String}
    {usersLat usersLong : ℚ} (hlat : P.double lat = some (.finite usersLat))
    (hlong : P.double long = some (.finite usersLong)) (hloc : ∀ p ∈ self.posts, Located P p) :
    ((∀ p ∈ self.posts, Dated P p) → ∃ feed, self.parsePosts P lat long = .ok feed) ∧
    ∀ feed, self.parsePosts P lat long = .ok feed → ∀ p ∈ self.posts, ∀ postLat postLong,
      p.lat.bind P.double = some (.finite postLat) →
      p.long.bind P.double = some (.finite postLong) →
      (p ∈ feed ↔ |postLat - usersLat| ≤ 1 ∧ NearModulo 360 1 postLong usersLong ∧
        |postLong - usersLong| < 359) := by
  have hfeed := parsePosts_of_located self hlat hlong hloc
  refine ⟨fun hdate => ?_, ?_⟩
  · obtain ⟨feed, hok⟩ := orderPostsByDate_ok_iff.mpr (.inr fun p hp =>
      hdate p (List.mem_of_mem_filter
        (p := fun p => Kept P (.finite usersLat) (.finite usersLong) p) hp))
    exact ⟨feed, hfeed.trans hok⟩
  · intro feed hok p hmem postLat postLong hpostLat hpostLong
    have hperm := orderPostsByDate_perm (hfeed.symm.trans hok)
    have harea : InArea P usersLat usersLong p ↔
        |postLat - usersLat| ≤ 1 ∧ |postLong - usersLong| ≤ 1 := by
      simp [InArea, hpostLat, hpostLong]
    rw [hperm.mem_iff, List.mem_filter, decide_eq_true_eq, kept_iff_inArea hP, harea,
      and_iff_right hmem]
    refine and_congr_right fun _ => ?_
    constructor
    · intro hle
      have hlt : |postLong - usersLong| < 359 := by linarith
      exact ⟨(nearModulo_iff hlt).mpr hle, hlt⟩
    · rintro ⟨hnear, hlt⟩
      exact (nearModulo_iff hlt).mp hnear

/-- Three quarters of a degree apart, and not kept. -/
theorem meridian_missed :
    OnGlobe 10 (359 / 2) ∧ OnGlobe 10 (-719 / 4) ∧ NearModulo 360 1 (-719 / 4) (359 / 2) ∧
    Platform.decimal.double "10" = some (.finite 10) ∧
    Platform.decimal.double "179.5" = some (.finite (359 / 2)) ∧
    Platform.decimal.double "-179.75" = some (.finite (-719 / 4)) ∧
    (PostController.mk none [placedPost "10" "-179.75" "1"]).parsePosts .decimal "10" "179.5" =
      .ok [] := by
  refine ⟨⟨?_, ?_⟩, ⟨?_, ?_⟩, ⟨1, ?_⟩, ?_, ?_, ?_, ?_⟩ <;> decide +kernel

/-- Posts on both sides of the 180th meridian, and one further north. -/
def meridianPosts : List Post :=
  [placedPost "10" "179.75" "1", placedPost "10" "-179.75" "2", placedPost "10.75" "178.5" "3",
    placedPost "12" "179.5" "4"]

theorem parsePosts_keeps_sample : ∃ feed,
    (PostController.mk none meridianPosts).parsePosts .decimal "10" "179.5" = .ok feed ∧
    placedPost "10" "179.75" "1" ∈ feed ∧ placedPost "10" "-179.75" "2" ∉ feed ∧
    placedPost "10.75" "178.5" "3" ∈ feed ∧ placedPost "12" "179.5" "4" ∉ feed := by
  have hlat : Platform.decimal.double "10" = some (.finite 10) := by decide +kernel
  have hlong : Platform.decimal.double "179.5" = some (.finite (359 / 2)) := by decide +kernel
  have hkeeps := parsePosts_keeps_iff Platform.decimal_exact (PostController.mk none meridianPosts)
    hlat hlong (by simp only [Located]; decide +kernel)
  obtain ⟨feed, hok⟩ := hkeeps.1 (by simp only [Dated]; decide +kernel)
  have hone := fun p hmem x y => hkeeps.2 feed hok p hmem x y
  refine ⟨feed, hok, ?_, ?_, ?_, ?_⟩
  · refine (hone _ (by decide) 10 (719 / 4) (by decide +kernel) (by decide +kernel)).mpr ?_
    exact ⟨by decide +kernel, ⟨0, by decide +kernel⟩, by decide +kernel⟩
  · intro hmem
    have hfar := ((hone _ (by decide) 10 (-719 / 4) (by decide +kernel) (by decide +kernel)).mp
      hmem).2.2
    exact absurd hfar (by decide +kernel)
  · refine (hone _ (by decide) (43 / 4) (357 / 2) (by decide +kernel) (by decide +kernel)).mpr ?_
    exact ⟨by decide +kernel, ⟨0, by decide +kernel⟩, by decide +kernel⟩
  · intro hmem
    have hfar := ((hone _ (by decide) 12 (359 / 2) (by decide +kernel) (by decide +kernel)).mp
      hmem).1
    exact absurd hfar (by decide +kernel)

/-! ### The order of the dictionary -/

theorem fetched_perm (self self' : PostController) {snapshot snapshot' : Json}
    (h : Enumerates snapshot snapshot') :
    (self'.fetched snapshot').posts.Perm (self.fetched snapshot).posts := by
  rw [PostController.fetched_posts, PostController.fetched_posts]
  rcases h with rfl | ⟨kvs, kvs', rfl, rfl, hp⟩
  · exact .refl _
  · exact hp.filterMap recordPost

/-- Some post has the date NaN, and another one is there. -/
def Undecided (P : Platform) (posts : List Post) : Prop :=
  ∃ p ∈ posts, dateValue P p = .nan ∧ ∃ q ∈ posts, q ≠ p

/-- **One order.**  Where no two posts have the same date and none is undecided, sorting does not
depend on the order given, nor on who sorts. -/
theorem orderPostsByDate_of_perm {posts posts' : List Post} (hp : posts'.Perm posts)
    (hdate : ∀ p ∈ posts, Dated P p)
    (hdistinct : ∀ a ∈ posts, ∀ b ∈ posts, (dateValue P a).equals (dateValue P b) = true → a = b)
    (hdecided : ¬ Undecided P posts) (sorter sorter' : PartialSort.Sorter Trap) :
    ∃ ordered, orderPostsByDate { P with sorter := sorter } posts = .ok ordered ∧
      orderPostsByDate { P with sorter := sorter' } posts' = .ok ordered := by
  by_cases htimed : ∀ p ∈ posts, Timed P p
  · -- an ordered list of different dates has one permutation in order
    obtain ⟨ordered, hok, hperm, hnewest⟩ :=
      orderPostsByDate_of_timed (P := { P with sorter := sorter }) htimed
    have htimed' : ∀ p ∈ posts', Timed P p := fun p hmem => htimed p (hp.mem_iff.mp hmem)
    obtain ⟨ordered', hok', hperm', hnewest'⟩ :=
      orderPostsByDate_of_timed (P := { P with sorter := sorter' }) htimed'
    have heq : ordered = ordered' := by
      refine List.Perm.eq_of_pairwise ?_ hnewest hnewest' (hperm.trans (hp.symm.trans hperm'.symm))
      intro a b ha hb hba hab
      have ha' := hperm.mem_iff.mp ha
      have hb' := hp.mem_iff.mp (hperm'.mem_iff.mp hb)
      refine hdistinct a ha' b hb' ?_
      have hsame : dateValue P a = dateValue P b := FloatingPoint.Value.antisymm hab hba
      have hnumber : dateValue P a ≠ .nan := htimed a ha'
      simpa [FloatingPoint.Value.equals, ← hsame] using hnumber
    rw [heq] at hok
    exact ⟨ordered', hok, hok'⟩
  · -- all posts are the one whose date is NaN
    push Not at htimed
    obtain ⟨p, hmem, hnan⟩ := htimed
    have hnan : dateValue P p = .nan := not_not.mp hnan
    have hall : ∀ q ∈ posts, q = p := fun q hq =>
      by_contra fun hne => hdecided ⟨p, hmem, hnan, q, hq, hne⟩
    obtain ⟨ordered, hok⟩ := (orderPostsByDate_ok_iff (P := { P with sorter := sorter })).mpr
      (.inr hdate)
    have hdate' : ∀ p ∈ posts', Dated P p := fun p hmem => hdate p (hp.mem_iff.mp hmem)
    obtain ⟨ordered', hok'⟩ := (orderPostsByDate_ok_iff (P := { P with sorter := sorter' })).mpr
      (.inr hdate')
    have hperm := orderPostsByDate_perm hok
    have hperm' := (orderPostsByDate_perm hok').trans hp
    have heq : ordered = ordered' := by
      rw [List.eq_replicate_of_mem fun q hq => hall q (hperm.mem_iff.mp hq),
        List.eq_replicate_of_mem fun q hq => hall q (hperm'.mem_iff.mp hq), hperm.length_eq,
        hperm'.length_eq]
    rw [heq] at hok
    exact ⟨ordered', hok, hok'⟩

/-- NaN precedes nothing and nothing precedes it. -/
theorem not_compareDates_nan {p : Post} (hp : dateValue P p = .nan) (q : Post) :
    (do
      let x ← unwrap (P.double p.date)
      let y ← unwrap (P.double q.date)
      return decide (x > y) : Except Trap Bool) ≠ .ok true ∧
    (do
      let x ← unwrap (P.double q.date)
      let y ← unwrap (P.double p.date)
      return decide (x > y) : Except Trap Bool) ≠ .ok true := by
  have hcase : P.double p.date = none ∨ P.double p.date = some .nan := by
    unfold dateValue at hp
    cases hd : P.double p.date with
    | none => exact .inl rfl
    | some x =>
        rw [hd] at hp
        exact .inr (congrArg some hp)
  have hgt : ∀ y : Double, ¬ FloatingPoint.Value.nan > y := FloatingPoint.Value.not_lt_nan
  have hlt : ∀ y : Double, ¬ y > FloatingPoint.Value.nan := FloatingPoint.Value.not_nan_lt
  rcases hcase with hd | hd <;> rw [hd] <;> cases P.double q.date <;>
    simp [unwrap, bind, Except.bind, pure, Except.pure, hgt, hlt]

/-- **Two orders.**  With insertion sort the post in front depends on which post came last. -/
theorem insertionSort_undecided {posts posts' ordered : List Post} {p q : Post}
    (hnan : dateValue P p = .nan) (hne : q ≠ p)
    (h : orderPostsByDate { P with sorter := PartialSort.insertionSorter Trap } (posts ++ [p]) =
      .ok ordered)
    (h' : orderPostsByDate { P with sorter := PartialSort.insertionSorter Trap } (posts' ++ [q]) =
      .ok ordered) : False := by
  obtain ⟨a, ha, hcase⟩ := PartialSort.insertionSort_head h
  obtain ⟨b, hb, hcase'⟩ := PartialSort.insertionSort_head h'
  obtain rfl : a = b := Option.some.inj (ha.symm.trans hb)
  obtain rfl : a = p := by
    rcases hcase with rfl | ⟨-, c, hc⟩
    · rfl
    · exact absurd hc (not_compareDates_nan hnan c).2
  rcases hcase' with rfl | ⟨⟨c, hc⟩, -⟩
  · exact hne rfl
  · exact (not_compareDates_nan hnan c).1 hc

/-- What a selection gives of a snapshot is one list, whatever the order of the records and whoever
sorts. -/
def OrderIndependent (P : Platform) (select : Platform → PostController → Except Trap (List Post))
    (snapshot : Json) : Prop :=
  ∀ (self self' : PostController) (sorter sorter' : PartialSort.Sorter Trap) (s s' : Json),
    Enumerates snapshot s → Enumerates snapshot s' → ∃ posts,
      select { P with sorter := sorter } (self.fetched s) = .ok posts ∧
      select { P with sorter := sorter' } (self'.fetched s') = .ok posts

/-- A selected post can be the last one. -/
theorem exists_enumeration {snapshot : Json} {p : Post}
    (hp : p ∈ PostController.decodePosts (snapshotRecords snapshot)) {Q : Post → Prop}
    [DecidablePred Q] (hQ : Q p) : ∃ s posts, Enumerates snapshot s ∧
      (PostController.new.fetched s).posts.filter Q = posts ++ [p] := by
  obtain ⟨r, hr, hrp⟩ := mem_decodePosts.mp hp
  cases snapshot with
  | object records =>
      obtain ⟨pre, post, rfl⟩ := List.append_of_mem hr
      refine ⟨.object (pre ++ post ++ [r]),
        (PostController.decodePosts (pre ++ post)).filter Q, .inr ⟨_, _, rfl, rfl, ?_⟩, ?_⟩
      · exact (List.perm_append_singleton _ _).trans List.perm_middle.symm
      · have hdecode : PostController.decodePosts (pre ++ post ++ [r]) =
            PostController.decodePosts (pre ++ post) ++ [p] := by
          rw [PostController.decodePosts, List.filterMap_append]
          exact congrArg _ (List.filterMap_cons_some hrp)
        rw [PostController.fetched_posts, snapshotRecords, Json.asObject, Option.getD_some, hdecode,
          List.filter_append, List.filter_singleton]
        simp [hQ]
  | _ => cases hr

/-- Sorting the posts `Q` selects gives one list if and only if none of them is undecided. -/
theorem orderIndependent_iff {Q : Post → Prop} [DecidablePred Q] {snapshot : Json}
    (hdate : ∀ p ∈ PostController.decodePosts (snapshotRecords snapshot), Dated P p)
    (hdistinct : (PostController.decodePosts (snapshotRecords snapshot)).Pairwise fun a b =>
      (dateValue P a).equals (dateValue P b) = false) :
    OrderIndependent P (fun P self => orderPostsByDate P (self.posts.filter Q)) snapshot ↔
      ¬ Undecided P ((PostController.decodePosts (snapshotRecords snapshot)).filter Q) := by
  constructor
  · rintro hind ⟨p, hp, hnan, q, hq, hne⟩
    obtain ⟨hp, hQp⟩ := List.mem_filter.mp hp
    obtain ⟨hq, hQq⟩ := List.mem_filter.mp hq
    obtain ⟨s, posts, hs, hposts⟩ := exists_enumeration hp (of_decide_eq_true hQp)
    obtain ⟨s', posts', hs', hposts'⟩ := exists_enumeration hq (of_decide_eq_true hQq)
    obtain ⟨ordered, h, h'⟩ := hind .new .new (PartialSort.insertionSorter Trap)
      (PartialSort.insertionSorter Trap) s s' hs hs'
    beta_reduce at h h'
    rw [hposts] at h
    rw [hposts'] at h'
    exact insertionSort_undecided hnan hne h h'
  · intro hdecided self self' sorter sorter' s s' hs hs'
    have hinj : ∀ a ∈ PostController.decodePosts (snapshotRecords snapshot),
        ∀ b ∈ PostController.decodePosts (snapshotRecords snapshot),
        (dateValue P a).equals (dateValue P b) = true → a = b := by
      intro a ha b hb heq
      by_contra hne
      have : Std.Symm fun a b => (dateValue P a).equals (dateValue P b) = false :=
        ⟨fun a b h => (FloatingPoint.Value.equals_comm _ _).trans h⟩
      rw [hdistinct.forall ha hb hne] at heq
      cases heq
    have hposts := fetched_perm self self hs
    have hposts' := fetched_perm self self' hs'
    rw [self.fetched_posts snapshot] at hposts hposts'
    have hfilter := hposts.filter Q
    refine orderPostsByDate_of_perm ((hposts'.filter Q).trans hfilter.symm)
      (fun p hp => hdate p (List.mem_of_mem_filter (hfilter.mem_iff.mp hp)))
      (fun a ha b hb => hinj a (List.mem_of_mem_filter (hfilter.mem_iff.mp ha)) b
        (List.mem_of_mem_filter (hfilter.mem_iff.mp hb))) ?_ sorter sorter'
    rintro ⟨p, hp, hnan, q, hq, hne⟩
    exact hdecided ⟨p, hfilter.mem_iff.mp hp, hnan, q, hfilter.mem_iff.mp hq, hne⟩

variable (P) in
/-- **When the feeds do not show the order of the dictionary.**  Where the dates of the decoded posts
are numbers no two of which are equal, a feed is one list, for any two orders of the dictionary and
any two sorting procedures, if and only if no post it selects has the date NaN while it selects
another one.  The feed at a location selects nothing unless the location and all posts are located. -/
theorem feeds_order_independent_iff (snapshot : Json)
    (hdate : ∀ p ∈ PostController.decodePosts (snapshotRecords snapshot), Dated P p)
    (hdistinct : (PostController.decodePosts (snapshotRecords snapshot)).Pairwise fun a b =>
      (dateValue P a).equals (dateValue P b) = false) :
    (∀ lat long, OrderIndependent P (fun P self => self.parsePosts P lat long) snapshot ↔
      ¬ ∃ usersLat usersLong, P.double lat = some usersLat ∧ P.double long = some usersLong ∧
        (∀ p ∈ PostController.decodePosts (snapshotRecords snapshot), Located P p) ∧
        Undecided P ((PostController.decodePosts (snapshotRecords snapshot)).filter fun p =>
          Kept P usersLat usersLong p)) ∧
    ∀ userName,
      OrderIndependent P (fun P self => filterPostsByUserandDate P self.posts userName) snapshot ↔
      ¬ Undecided P ((PostController.decodePosts (snapshotRecords snapshot)).filter fun p =>
        P.same p.author userName) := by
  refine ⟨fun lat long => ?_, fun userName => orderIndependent_iff
    (Q := fun p => P.same p.author userName) hdate hdistinct⟩
  by_cases hknown : ∃ x y, P.double lat = some x ∧ P.double long = some y
  · obtain ⟨usersLat, usersLong, hlat, hlong⟩ := hknown
    simp only [hlat, hlong, Option.some.injEq, exists_and_left, exists_eq_left', not_and]
    have hlocated (self : PostController) {s : Json} (hs : Enumerates snapshot s) :
        (∀ p ∈ (self.fetched s).posts, Located P p) ↔
          ∀ p ∈ PostController.decodePosts (snapshotRecords snapshot), Located P p := by
      have hperm := fetched_perm self self hs
      rw [self.fetched_posts snapshot] at hperm
      exact ⟨fun h p hp => h p (hperm.mem_iff.mpr hp), fun h p hp => h p (hperm.mem_iff.mp hp)⟩
    by_cases hloc : ∀ p ∈ PostController.decodePosts (snapshotRecords snapshot), Located P p
    · rw [forall_prop_of_true hloc, ← orderIndependent_iff hdate hdistinct]
      have hfeed (self : PostController) (sorter : PartialSort.Sorter Trap) {s : Json}
          (hs : Enumerates snapshot s) :=
        parsePosts_of_located (P := { P with sorter := sorter }) (self.fetched s) hlat hlong
          ((hlocated self hs).mpr hloc)
      constructor
      · intro h self self' sorter sorter' s s' hs hs'
        obtain ⟨posts, hs₁, hs₂⟩ := h self self' sorter sorter' s s' hs hs'
        exact ⟨posts, (hfeed self sorter hs).symm.trans hs₁,
          (hfeed self' sorter' hs').symm.trans hs₂⟩
      · intro h self self' sorter sorter' s s' hs hs'
        obtain ⟨posts, hs₁, hs₂⟩ := h self self' sorter sorter' s s' hs hs'
        exact ⟨posts, (hfeed self sorter hs).trans hs₁, (hfeed self' sorter' hs').trans hs₂⟩
    · refine iff_of_true ?_ fun h => absurd h hloc
      intro self self' sorter sorter' s s' hs hs'
      have hempty (self : PostController) (sorter : PartialSort.Sorter Trap) {s : Json}
          (hs : Enumerates snapshot s) :=
        ((parsePosts_eq (P := { P with sorter := sorter }) (self.fetched s) hlat hlong).resolve_left
          fun h => hloc ((hlocated self hs).mp h.1)).2
      exact ⟨[], hempty self sorter hs, hempty self' sorter' hs'⟩
  · refine iff_of_true ?_ ?_
    · intro self self' sorter sorter' s s' hs hs'
      exact ⟨[], parsePosts_of_unknown (P := { P with sorter := sorter }) _ hknown,
        parsePosts_of_unknown (P := { P with sorter := sorter' }) _ hknown⟩
    · rintro ⟨x, y, hlat, hlong, -⟩
      exact hknown ⟨x, y, hlat, hlong⟩

/-- A record with a date. -/
def datedRecord (id date : String) : String × Json :=
  (id, .object [("author", .string "ann"), ("date", .string date), ("description", .string ""),
    ("id", .string id), ("latitude", .string "10"), ("longitude", .string "20"),
    ("title", .string "")])

/-- Two records, one of them with the date NaN, come back in either order. -/
theorem nan_shows_order :
    (∀ p ∈ PostController.decodePosts [datedRecord "p" "2", datedRecord "q" "nan"],
      Dated .binary64 p) ∧
    (PostController.decodePosts [datedRecord "p" "2", datedRecord "q" "nan"]).Pairwise (fun a b =>
      (dateValue .binary64 a).equals (dateValue .binary64 b) = false) ∧
    ∃ posts posts', posts ≠ posts' ∧
      (PostController.new.fetched (.object [datedRecord "p" "2", datedRecord "q" "nan"])).parsePosts
        .binary64 "10" "20" = .ok posts ∧
      (PostController.new.fetched (.object [datedRecord "q" "nan", datedRecord "p" "2"])).parsePosts
        .binary64 "10" "20" = .ok posts' := by
  refine ⟨by simp only [Dated]; decide +kernel, by decide +kernel, ?_⟩
  refine ⟨PostController.decodePosts [datedRecord "q" "nan", datedRecord "p" "2"],
    PostController.decodePosts [datedRecord "p" "2", datedRecord "q" "nan"], ?_, ?_, ?_⟩ <;>
    decide +kernel

theorem feeds_order_independent_sample : ∃ posts,
    filterPostsByUserandDate .binary64 (PostController.new.fetched (.object
      [datedRecord "p" "1", datedRecord "q" "2", datedRecord "r" "inf"])).posts "ann" =
        .ok posts ∧
    filterPostsByUserandDate .binary64 (PostController.new.fetched (.object
      [datedRecord "q" "2", datedRecord "r" "inf", datedRecord "p" "1"])).posts "ann" =
        .ok posts :=
  ((feeds_order_independent_iff .binary64
    (.object [datedRecord "p" "1", datedRecord "q" "2", datedRecord "r" "inf"])
    (by simp only [Dated]; decide +kernel) (by decide +kernel)).2 "ann").mpr
    (by simp only [Undecided]; decide +kernel) .new .new
    (PartialSort.insertionSorter Trap) (PartialSort.insertionSorter Trap) _ _ (Enumerates.refl _)
    (by decide +kernel)

end ZipR
