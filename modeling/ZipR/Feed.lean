import ZipR.Database
import ZipR.CreateForm

/-! # The feed, end to end

From the create form of one client to the message board of another.

* `Posted` says that an update is a call of `createPost` by `postMessageBoard`, for a user with a
  finite location and with a UUID string as its id, or no creation at all.
* `feed_correct`: in every database reached by such updates a fetch followed by `parsePosts`
  shows exactly the live posts of the area, each once, newest first.

What carries the proof is `posted_posts`: every post of the board has a numeric location and a
numeric date, and a UUID string as its id. -/

namespace ZipR

open JsonTree Reactive

section
variable (P : Platform)

/-- A creation comes from a create form, by a located user. -/
def Posted : Update → Prop
  | .createPost uuid new => P.UUID uuid ∧ ∃ form postController name coordinate now,
      P.Finite coordinate.latitude ∧ P.Finite coordinate.longitude ∧ P.Finite now ∧
      postController.user = some (loggedUser P name coordinate) ∧
      CreateMessageBoardViewController.postMessageBoard P form (some postController) now = some new
  | _ => True

variable {P}

theorem Posted.located {uuid : String} {new : NewPost} (h : Posted P (.createPost uuid new)) :
    Located P (new.post uuid) ∧ Timed P (new.post uuid) := by
  obtain ⟨-, form, postController, name, coordinate, now, hlat, hlong, hnow, huser, hpost⟩ := h
  obtain ⟨controller, user, hc, hu, -, h₁, h₂, h₃⟩ :=
    CreateMessageBoardViewController.postMessageBoard_eq_some hpost
  obtain rfl := Option.some.inj hc
  obtain rfl := Option.some.inj (huser.symm.trans hu)
  have hlat' : new.lat = P.string coordinate.latitude := (Option.some.inj h₁).symm
  have hlong' : new.long = P.string coordinate.longitude := (Option.some.inj h₂).symm
  simp [Located, Timed, dateValue, NewPost.post, Post.init, hlat', hlong', h₃,
    P.double_string _ hlat, P.double_string _ hlong, P.double_string _ hnow]

/-- The updates of a database whose posts all come from create forms. -/
def postedMachine (P : Platform) : Machine Database Update Unit Trap :=
  Database.machine.restrict fun _ u => Posted P u

/-- The posts of the board were created. -/
theorem created_of_board {us : List Update} {id : String} {p : Post}
    (h : (boardOf us).posts id = some p) : ∃ new, .createPost id new ∈ us ∧ p = new.post id := by
  induction us using List.reverseRecOn with
  | nil => cases h
  | append_singleton us u ih =>
      have hold : (boardOf us).posts id = some p →
          ∃ new, .createPost id new ∈ us ++ [u] ∧ p = new.post id := by
        intro h
        obtain ⟨new, hm, rfl⟩ := ih h
        exact ⟨new, List.mem_append_left _ hm, rfl⟩
      rw [boardOf_snoc] at h
      cases u with
      | createPost uuid new =>
          by_cases hid : id = uuid
          · subst hid
            obtain rfl : new.post id = p := by simpa [Board.apply] using h
            exact ⟨new, by simp, rfl⟩
          · exact hold (by simpa [Board.apply, hid] using h)
      | removePost postId =>
          by_cases hid : id = postId
          · subst hid
            simp [Board.apply] at h
          · exact hold (by simpa [Board.apply, hid] using h)
      | createComment _ _ _ _ => exact hold h
      | removeComments _ => exact hold h

theorem posted_of_run {us : List Update} {os : List Unit} {d : Database}
    (h : (postedMachine P).Run .empty us os d) : ∀ u ∈ us, Posted P u := by
  refine h.history (P := fun us _ _ => ∀ u ∈ us, Posted P u) (fun _ hu => by cases hu) ?_
  intro us os d u o d' _ ih hs v hv
  rcases List.mem_append.mp hv with hv | hv
  · exact ih v hv
  · obtain rfl := List.mem_singleton.mp hv
    exact (Machine.restrict_step.mp hs).2

/-- Every post of the board has a UUID string as its id, a numeric location and a numeric date. -/
theorem posted_posts {us : List Update} {os : List Unit} {d : Database}
    (h : (postedMachine P).Run .empty us os d) {id : String} {p : Post}
    (hp : (boardOf us).posts id = some p) : P.UUID id ∧ Located P p ∧ Timed P p := by
  obtain ⟨new, hm, rfl⟩ := created_of_board hp
  have hposted := posted_of_run h _ hm
  exact ⟨hposted.1, hposted.located⟩

/-- Reading back changes neither the location nor the date. -/
theorem inArea_readBack {usersLat usersLong : ℚ} {p : Post} :
    InArea P usersLat usersLong p.readBack ↔ InArea P usersLat usersLong p := Iff.rfl

/-- **End-to-end feed correctness.**  With exact numbers, after any updates whose creations come from
create forms, as long as a post is left, a fetch of the `Posts` node (in any order of its records)
completes, and `parsePosts` at any location does not trap and returns, newest first and without
repetition, the posts of the board within one degree of the location, as they are read back. -/
theorem feed_correct (hP : P.Exact) {us : List Update} {os : List Unit} {d : Database}
    (h : (postedMachine P).Run .empty us os d) (hne : ∃ id, (boardOf us).posts id ≠ none)
    {lat long : ℚ} (hlat : P.Finite lat) (hlong : P.Finite long) {snapshot : Json}
    (hs : Enumerates (d.tree.get ["Posts"]) snapshot) (self : PostController) :
    ∃ fetched feed,
      self.fetchPosts.fetchPostsAnswered (.value snapshot) = (fetched, [none]) ∧
      fetched.parsePosts P (P.string lat) (P.string long) = .ok feed ∧
      (feed.map Post.id).Nodup ∧
      (∀ p, p ∈ feed ↔
        ∃ id q, (boardOf us).posts id = some q ∧ InArea P lat long q ∧ p = q.readBack) ∧
      (∀ p ∈ feed, Dated P p) ∧ NewestFirst P feed := by
  have hinv := invariant_of_run h.of_restrict
  obtain ⟨kvs, hkvs⟩ := hinv.represents.postsNode
  rw [hkvs] at hs
  obtain ⟨records, rfl, hp⟩ := hs.ofEntries
  have hrec : records.Perm (d.tree.get ["Posts"]).entries := by
    rw [hkvs, Json.entries_ofEntries]
    exact hp
  have hrecne : records ≠ [] := by
    rintro rfl
    obtain ⟨id, hid⟩ := hne
    obtain ⟨p, hp'⟩ := Option.ne_none_iff_exists'.mp hid
    have := hrec.mem_iff.mpr (hinv.mem_posts_iff.mpr ⟨p, hp', rfl⟩)
    cases this
  obtain ⟨hids, hmem⟩ := hinv.decodePosts hrec
  have hall : ∀ p ∈ PostController.decodePosts records, Located P p ∧ Timed P p := by
    intro p hp
    obtain ⟨id, q, hq, rfl⟩ := (hmem p).mp hp
    exact (posted_posts h hq).2
  have hparse := parsePosts_of_located
    { self.fetchPosts with posts := PostController.decodePosts records }
    (P.double_string lat hlat) (P.double_string long hlong) fun p hp => (hall p hp).1
  simp only [kept_iff_inArea hP] at hparse
  have htimed : ∀ p ∈ (PostController.decodePosts records).filter fun p => InArea P lat long p,
      Timed P p := fun p hp => (hall p (List.mem_of_mem_filter hp)).2
  obtain ⟨feed, hfeed, hperm, hnew⟩ := orderPostsByDate_of_timed htimed
  have hmemfeed : ∀ p, p ∈ feed ↔
      ∃ id q, (boardOf us).posts id = some q ∧ InArea P lat long q ∧ p = q.readBack := by
    intro p
    rw [hperm.mem_iff, List.mem_filter, hmem p]
    constructor
    · rintro ⟨⟨id, q, hq, rfl⟩, hin⟩
      exact ⟨id, q, hq, inArea_readBack.mp (by simpa using hin), rfl⟩
    · rintro ⟨id, q, hq, hin, rfl⟩
      exact ⟨⟨id, q, hq, rfl⟩, by simpa using inArea_readBack.mpr hin⟩
  refine ⟨_, feed, ?_, hparse.trans hfeed, ?_, hmemfeed, ?_, hnew⟩
  · simp only [PostController.fetchPostsAnswered, Json.asObject_ofEntries hrecne]
  · -- the ids of the decoded posts are the keys of the node
    have hnd : ((PostController.decodePosts records).map Post.id).Nodup := by
      have hkeys := (d.tree.keyed ["Posts"]).perm hrec
      rw [hids, ← Function.comp_def some, ← List.map_map]
      exact hkeys.1.map (Option.some_injective _)
    rw [(hperm.map Post.id).nodup_iff]
    exact hnd.sublist (List.filter_sublist.map _)
  · exact fun p hp => (hall p (List.mem_of_mem_filter (hperm.mem_iff.mp hp))).2.dated

end

/-! Posts of two users, one of them deleted and one far away. -/

def sampleForm : CreateMessageBoardViewController := ⟨some "Hello", ⟨"First post", .black⟩, []⟩

/-- What the form gives for a user and a time. -/
def sampleBy (name : String) (coordinate : Coordinate) (now : ℚ) : NewPost where
  author := name
  title := "Hello"
  description := "First post"
  tag := []
  lat := Platform.decimal.string coordinate.latitude
  long := Platform.decimal.string coordinate.longitude
  date := Platform.decimal.string now

theorem sampleBy_posted {uuid name : String} {coordinate : Coordinate} {now : ℚ}
    (huuid : Platform.decimal.UUID uuid) (hlat : Platform.decimal.Finite coordinate.latitude)
    (hlong : Platform.decimal.Finite coordinate.longitude) (hnow : Platform.decimal.Finite now) :
    Posted .decimal (.createPost uuid (sampleBy name coordinate now)) :=
  ⟨huuid, sampleForm, ⟨some (loggedUser .decimal name coordinate), []⟩, name, coordinate, now, hlat,
    hlong, hnow, rfl, rfl⟩

def sampleNew : NewPost := sampleBy "A" ⟨75 / 2, -489 / 4⟩ 1580774400

def sampleUpdates : List Update :=
  [.createPost "6F96-8B86" sampleNew,
    .createPost "B42D-00CF" (sampleBy "B" ⟨38, -122⟩ 1580774500),
    .createPost "0DD5-11AA" (sampleBy "A" ⟨10, 20⟩ 1580774600),
    .createPost "77E0-2C4B" (sampleBy "A" ⟨38, -122⟩ 1580774700),
    .removePost "77E0-2C4B", .removeComments "77E0-2C4B",
    .createPost "A11C-93F2" (sampleBy "A" ⟨75 / 2, -121⟩ 1580774800)]

theorem sampleUpdates_posted : ∀ u ∈ sampleUpdates, Posted .decimal u := by
  simp only [sampleUpdates, List.forall_mem_cons, List.not_mem_nil, false_imp_iff, implies_true,
    and_true]
  refine ⟨?_, ?_, ?_, ?_, trivial, trivial, ?_⟩ <;>
    exact sampleBy_posted (by decide +kernel) (by decide +kernel) (by decide +kernel)
      (by decide +kernel)

/-- The updates are a run of the database, with the given property of the tree it leaves. -/
theorem sample_run {Q : Tree → Prop} [DecidablePred Q]
    (h : (match Database.machine.exec .empty sampleUpdates with
      | .ok (d, _) => decide (Q d.tree)
      | .error _ => false) = true) :
    ∃ os d, (postedMachine .decimal).Run .empty sampleUpdates os d ∧ Q d.tree := by
  obtain ⟨os, d, hr, hq⟩ := Machine.Run.exists_of_exec (M := Database.machine)
    (s := .empty) (l := sampleUpdates) (Q := fun d _ => Q d.tree) (by decide +kernel) h
  refine ⟨os, d, hr.restrict_iff.mpr ?_, hq⟩
  intro pre u post he _ _ _
  exact sampleUpdates_posted u (he ▸ List.mem_append_right _ List.mem_cons_self)

theorem feed_correct_sample : ∃ os d fetched feed,
    (postedMachine .decimal).Run .empty sampleUpdates os d ∧
    PostController.new.fetchPosts.fetchPostsAnswered (.value (d.tree.get ["Posts"])) =
      (fetched, [none]) ∧
    fetched.parsePosts .decimal (Platform.decimal.string 38) (Platform.decimal.string (-122)) =
      .ok feed ∧
    feed.map Post.id = [some "A11C-93F2", some "B42D-00CF", some "6F96-8B86"] ∧
    NewestFirst .decimal feed := by
  obtain ⟨os, d, hr, hids⟩ := sample_run (Q := fun t =>
    ((PostController.new.fetchPosts.fetchPostsAnswered (.value (t.get ["Posts"]))).1.parsePosts
      .decimal (Platform.decimal.string 38) (Platform.decimal.string (-122))).toOption.map
        (List.map Post.id) = some [some "A11C-93F2", some "B42D-00CF", some "6F96-8B86"])
    (by decide +kernel)
  obtain ⟨fetched, feed, hfetch, hparse, -, -, -, hnew⟩ :=
    feed_correct Platform.decimal_exact hr
      ⟨"6F96-8B86", by simp [sampleUpdates, boardOf, Board.apply]⟩
      (by decide +kernel : Platform.decimal.Finite 38)
      (by decide +kernel : Platform.decimal.Finite (-122)) (Enumerates.refl _) PostController.new
  rw [hfetch, hparse] at hids
  exact ⟨os, d, fetched, feed, hr, hfetch, hparse, Option.some.inj hids, hnew⟩

end ZipR
