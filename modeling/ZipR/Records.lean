import ZipR.Selections
import ZipR.Comments

/-! # Records that are read back

What the store returns of the records the app writes, decoded by the app.

* **Posts.** Encoding and decoding agree on every field, up to the default tag for an empty tag
  list, which no stored record holds (`post_survives_storage`).
* **Comments.** The initialiser draws a new id where `Post.init` keeps the given one, so a comment
  is never decoded with the id it was stored with (`comment_identity_lost`). -/

namespace ZipR

open JsonTree Reactive

/-! ### Posts -/

theorem asStrings_eq_nil {v : Json} (h : v.asStrings = some []) : v = .array [] := by
  cases v with
  | array xs =>
      cases xs with
      | nil => rfl
      | cons x xs =>
          simp only [Json.asStrings, List.mapM_cons] at h
          cases hx : x.asString <;> cases hxs : xs.mapM Json.asString <;> simp [hx, hxs] at h
  | _ => simp [Json.asStrings] at h

/-- A decoded post has every field; its tags are those of the record or the default. -/
theorem initDictionary_complete {dictionary : List (String × Json)} {p : Post}
    (h : Post.initDictionary dictionary = some p) :
    p.Complete ∧ ((Json.lookup "tags" dictionary).asStrings = p.tag ∨
      p.tag = some Post.defaultTag) := by
  simp only [Post.initDictionary, bind, Option.bind_eq_some_iff] at h
  obtain ⟨author, -, identifier, -, description, -, title, -, latitude, -, longitude, -, h⟩ := h
  cases htags : (Json.lookup "tags" dictionary).asStrings with
  | none =>
      rw [htags] at h
      obtain rfl := Option.some.inj h
      exact ⟨Post.init_complete .., .inr rfl⟩
  | some tags =>
      rw [htags] at h
      obtain rfl := Option.some.inj h
      exact ⟨Post.init_complete .., .inl rfl⟩

/-- What the store keeps of a complete post decodes as its `readBack`. -/
theorem decode_update {p : Post} (h : p.Complete) {dictionary : List (String × Json)}
    (hd : p.dictionaryRepresentation = .ok dictionary) (t : Tree) (ref : Path) :
    (((t.update ref (.object dictionary)).get ref).asObject >>= Post.initDictionary) =
      some p.readBack := by
  have hget : (t.update ref (.object dictionary)).get ref = p.stored := by
    rw [Post.stored, Post.record, hd]
    exact t.root.get_update_self ref _
  rw [hget]
  exact h.decode_stored

/-- A post decoded from a compact tree is read back as it is. -/
theorem readBack_eq_self {t : Tree} (ht : t.root.Compact) {ref : Path}
    {dictionary : List (String × Json)} (hread : (t.get ref).asObject = some dictionary) {p : Post}
    (hp : Post.initDictionary dictionary = some p) : p.readBack = p := by
  have htags : Json.lookup "tags" dictionary ≠ .array [] := by
    have hobject : t.get ref = .object dictionary := by
      cases hv : t.get ref <;> simp_all [Json.asObject]
    have hchild : t.get (ref ++ ["tags"]) = Json.lookup "tags" dictionary := by
      rw [t.get_append, hobject]
      rfl
    rw [← hchild]
    exact (ht _).1
  have hne : p.tag ≠ some [] := by
    intro hnil
    rcases (initDictionary_complete hp).2 with htag | htag
    · exact htags (asStrings_eq_nil (htag.trans hnil))
    · rw [htag] at hnil
      cases hnil
  obtain ⟨author, title, description, tag, long, lat, id, date⟩ := p
  cases tag with
  | none => rfl
  | some tag =>
      have hcons : tag ≠ [] := fun hnil => hne (congrArg some hnil)
      simp [Post.readBack, hcons]

/-- **Post records survive storage.**  A post that was initialised, written anywhere and read back
has its fields, an empty tag list being the default one; and a post decoded from anything a compact
tree holds comes back equal when it is written again. -/
theorem post_survives_storage :
    (∀ (uuid authorName title description : String) (tag : List String) (long lat : String)
      (id : Option String) (date : String) (t : Tree) (ref : Path),
      ∃ dictionary q, (Post.init uuid authorName title description tag long lat id
          date).dictionaryRepresentation = .ok dictionary ∧
        (((t.update ref (.object dictionary)).get ref).asObject >>= Post.initDictionary) = some q ∧
        q.author = authorName ∧ q.title = title ∧ q.description = description ∧
        q.lat = some lat ∧ q.long = some long ∧ q.id = some (id.getD uuid) ∧ q.date = date ∧
        q.tag = some (if tag = [] then [Tag.general.rawValue] else tag)) ∧
    ∀ (t : Tree) (ref : Path) (dictionary : List (String × Json)) (p : Post), t.root.Compact →
      (t.get ref).asObject = some dictionary → Post.initDictionary dictionary = some p →
      ∃ dictionary', p.dictionaryRepresentation = .ok dictionary' ∧ ∀ (t' : Tree) (ref' : Path),
        (((t'.update ref' (.object dictionary')).get ref').asObject >>= Post.initDictionary) =
          some p := by
  refine ⟨?_, ?_⟩
  · intro uuid authorName title description tag long lat id date t ref
    have hcomplete := Post.init_complete uuid authorName title description tag long lat id date
    obtain ⟨dictionary, hd⟩ := hcomplete.dictionaryRepresentation
    refine ⟨dictionary, _, hd, decode_update hcomplete hd t ref, rfl, rfl, rfl, rfl, rfl, ?_, rfl,
      rfl⟩
    cases id <;> rfl
  · intro t ref dictionary p ht hread hp
    have hcomplete := (initDictionary_complete hp).1
    obtain ⟨dictionary', hd⟩ := hcomplete.dictionaryRepresentation
    refine ⟨dictionary', hd, fun t' ref' => ?_⟩
    rw [decode_update hcomplete hd t' ref', readBack_eq_self ht hread hp]

/-- A record without a date, whose tags are a number. -/
def looseRecord : List (String × Json) :=
  [("author", .string "ann"), ("description", .string ""), ("id", .string "p"),
    ("latitude", .string "10"), ("longitude", .string "20"), ("tags", .number 3),
    ("title", .string "")]

theorem post_survives_storage_sample : ∃ p dictionary,
    Post.initDictionary looseRecord = some p ∧ p.tag = some ["general"] ∧ p.date = "" ∧
    p.dictionaryRepresentation = .ok dictionary ∧
    (((Tree.empty.update ["Posts", "p"] (.object dictionary)).get ["Posts", "p"]).asObject >>=
      Post.initDictionary) = some p := by
  obtain ⟨dictionary, hd, hread⟩ := post_survives_storage.2
    (Tree.empty.update ["Posts", "p"] (.object looseRecord)) ["Posts", "p"] looseRecord
    (Post.init "" "ann" "" "" ["general"] "20" "10" (some "p") "")
    (Json.compact_null.update _ _) (by decide +kernel) (by decide +kernel)
  exact ⟨_, dictionary, by decide +kernel, rfl, rfl, hd, hread _ _⟩

/-! ### Comments -/

/-- The comments delivered have the keys of their records as ids. -/
def IdsAreKeys (delivered : List Comment) (snapshot : Json) : Prop :=
  delivered.map Comment.id = (snapshotRecords snapshot).map fun r => some r.1

/-- Decoding a comment's own encoding gives its content and the drawn id. -/
theorem Comment.decode_representation {c : Comment} (h : c.id.isSome) (uuid : String) :
    ∃ dictionary, c.dictionaryRepresentation = .ok dictionary ∧
      Comment.initDictionary uuid dictionary = some { c with id := some uuid } := by
  obtain ⟨own, hown⟩ := Option.isSome_iff_exists.mp h
  refine ⟨_, by rw [Comment.dictionaryRepresentation, hown], ?_⟩
  simp [Comment.initDictionary, Comment.init, Json.asString]

/-- A decoded comment has a drawn id. -/
theorem id_of_mem_decodeComments {uuid : ℕ → String} {records : List (String × Json)} {c : Comment}
    (h : c ∈ CommentController.decodeComments uuid records) : ∃ n, c.id = some (uuid n) := by
  obtain ⟨⟨r, n⟩, -, hr⟩ := List.mem_filterMap.mp h
  obtain ⟨dictionary, -, hd⟩ := Option.bind_eq_some_iff.mp hr
  simp only [Comment.initDictionary, bind, Option.bind_eq_some_iff] at hd
  obtain ⟨author, -, identifier, -, description, -, postID, -, hc⟩ := hd
  obtain rfl := Option.some.inj hc
  exact ⟨n, rfl⟩

/-- The comments a fetch delivers have drawn ids, and there are some if there should be. -/
theorem Invariant.delivered_ids {d : Database} {b : Board} (h : Invariant d b) {id : String}
    {snapshot : Json} (hs : Enumerates (d.tree.get ["Comments", id]) snapshot)
    (uuid : ℕ → String) :
    ∃ delivered, CommentController.fetchCommentsforPostAnswered uuid (.value snapshot) =
      [delivered] ∧ (delivered = none ↔ b.comments id = []) ∧
      ∀ l ∈ delivered, (∃ n, some (uuid n) ∈ l.map Comment.id) ∧
        ∀ i ∈ l.map Comment.id, ∃ n, i = some (uuid n) := by
  obtain ⟨delivered, hfetch, hdelivers⟩ := h.delivers hs uuid
  refine ⟨delivered, hfetch, ?_⟩
  cases delivered with
  | none => exact ⟨iff_of_true rfl hdelivers, by simp⟩
  | some l =>
      obtain ⟨hne, hperm⟩ := hdelivers
      refine ⟨iff_of_false (by simp) hne, ?_⟩
      rintro l' ⟨⟩
      have hdrawn : ∀ i ∈ l.map Comment.id, ∃ n, i = some (uuid n) := by
        intro i hi
        obtain ⟨c, hc, rfl⟩ := List.mem_map.mp hi
        simp only [CommentController.fetchCommentsforPostAnswered] at hfetch
        split at hfetch
        · cases hfetch
        · obtain rfl : CommentController.decodeComments uuid _ = l := by simpa using hfetch
          exact id_of_mem_decodeComments hc
      have hl : l.map Comment.id ≠ [] := by
        intro hnil
        rw [List.map_eq_nil_iff.mp hnil] at hperm
        exact hne (List.map_eq_nil_iff.mp hperm.symm.eq_nil)
      obtain ⟨i, hi⟩ := List.exists_mem_of_ne_nil _ hl
      obtain ⟨n, rfl⟩ := hdrawn i hi
      exact ⟨⟨n, hi⟩, hdrawn⟩

/-- The keys below the comments of a post have been drawn. -/
theorem Invariant.drawn_keys {d : Database} {b : Board} (h : Invariant d b) {id : String}
    {snapshot : Json} (hs : Enumerates (d.tree.get ["Comments", id]) snapshot) :
    ∀ r ∈ snapshotRecords snapshot, r.1 ∈ d.uuids := by
  intro r hr
  obtain ⟨kvs, hkvs, hp⟩ := h.represents.comments id
  rw [hkvs] at hs
  obtain ⟨records, rfl, hrecords⟩ := hs.ofEntries
  rw [snapshotRecords_ofEntries] at hr
  obtain ⟨c, hc, rfl⟩ := List.mem_map.mp ((hrecords.trans hp).mem_iff.mp hr)
  obtain ⟨-, -, u, hu, hcu⟩ := h.comment id c hc
  rw [Comment.stored, hcu]
  exact hu

/-- **Comments lose their identity.**  A comment decoded from its own encoding has its content but
not its id.  So after any updates of an empty database, the comments delivered for a post have the
keys of their records as ids, or the ids of another fetch of the same store, exactly when the post
has no comment. -/
theorem comment_identity_lost {us : List Update} {os : List Unit} {d : Database}
    (h : Database.machine.Run .empty us os d) (id : String) {snapshot snapshot' : Json}
    (hs : Enumerates (d.tree.get ["Comments", id]) snapshot)
    (hs' : Enumerates (d.tree.get ["Comments", id]) snapshot') {uuid uuid' : ℕ → String}
    (hfresh : ∀ n, uuid n ∉ d.uuids) (hother : ∀ m n, uuid m ≠ uuid' n) :
    (∀ (c : Comment) (own : String) (n : ℕ), c.id = some own → uuid n ≠ own →
      ∃ dictionary c', c.dictionaryRepresentation = .ok dictionary ∧
        Comment.initDictionary (uuid n) dictionary = some c' ∧ c'.author = c.author ∧
        c'.description = c.description ∧ c'.postID = c.postID ∧ c'.id ≠ c.id) ∧
    ∃ delivered delivered',
      CommentController.fetchCommentsforPostAnswered uuid (.value snapshot) = [delivered] ∧
      CommentController.fetchCommentsforPostAnswered uuid' (.value snapshot') = [delivered'] ∧
      ((∀ l ∈ delivered, IdsAreKeys l snapshot) ↔ commentsSince id us = []) ∧
      ((∀ l ∈ delivered, ∀ l' ∈ delivered', (l.map Comment.id).Perm (l'.map Comment.id)) ↔
        commentsSince id us = []) := by
  refine ⟨?_, ?_⟩
  · intro c own n hid hne
    obtain ⟨dictionary, hd, hdecode⟩ :=
      Comment.decode_representation (c := c) (by simp [hid]) (uuid n)
    refine ⟨dictionary, _, hd, hdecode, rfl, rfl, rfl, ?_⟩
    simpa [hid] using hne
  · have hinv := invariant_of_run h
    obtain ⟨delivered, hfetch, hnone, hids⟩ := hinv.delivered_ids hs uuid
    obtain ⟨delivered', hfetch', hnone', hids'⟩ := hinv.delivered_ids hs' uuid'
    rw [boardOf_comments] at hnone hnone'
    refine ⟨delivered, delivered', hfetch, hfetch', ?_, ?_⟩
    · rw [← hnone]
      cases delivered with
      | none => simp
      | some l =>
          refine iff_of_false (fun hkeys => ?_) (by simp)
          obtain ⟨⟨n, hn⟩, -⟩ := hids l rfl
          rw [hkeys l rfl] at hn
          obtain ⟨r, hr, hkey⟩ := List.mem_map.mp hn
          have hkey' : r.1 = uuid n := Option.some.inj hkey
          exact hfresh n (hkey' ▸ hinv.drawn_keys hs r hr)
    · rw [← hnone]
      cases delivered with
      | none => simp
      | some l =>
          refine iff_of_false (fun hsame => ?_) (by simp)
          obtain ⟨⟨n, hn⟩, -⟩ := hids l rfl
          have hsome : delivered' ≠ none := fun he => by
            have := hnone.mpr (hnone'.mp he)
            cases this
          obtain ⟨l', rfl⟩ := Option.ne_none_iff_exists'.mp hsome
          obtain ⟨m, hm⟩ := (hids' l' rfl).2 _ ((hsame l rfl l' rfl).mem_iff.mp hn)
          exact hother n m (Option.some.inj hm)

theorem comment_id_replaced : ∃ dictionary c',
    (Comment.init "B42D-00CF" "B" "Welcome" none "6F96-8B86").dictionaryRepresentation =
      .ok dictionary ∧
    Comment.initDictionary "C964-FF00" dictionary = some c' ∧ c'.id = some "C964-FF00" :=
  ⟨_, Comment.init "C964-FF00" "B" "Welcome" none "6F96-8B86", rfl, by decide +kernel, rfl⟩

theorem comment_identity_lost_sample : ∃ os d delivered,
    Database.machine.Run .empty commentedPost os d ∧
    CommentController.fetchCommentsforPostAnswered (fun _ => "C964-FF00")
      (.value (d.tree.get ["Comments", "6F96-8B86"])) = [delivered] ∧
    ¬ ∀ l ∈ delivered, IdsAreKeys l (d.tree.get ["Comments", "6F96-8B86"]) := by
  obtain ⟨os, d, hr, hfresh⟩ := Machine.Run.exists_of_exec (M := Database.machine)
    (s := .empty) (l := commentedPost) (Q := fun d _ => "C964-FF00" ∉ d.uuids)
    (by decide +kernel) (by decide +kernel)
  have hother : ∀ m n : ℕ, (fun _ => "C964-FF00") m ≠ (fun _ => "D018-7A21") n := by
    intro m n
    show "C964-FF00" ≠ "D018-7A21"
    decide
  obtain ⟨-, delivered, -, hfetch, -, hkeys, -⟩ := comment_identity_lost hr "6F96-8B86"
    (Enumerates.refl _) (Enumerates.refl _) (fun _ => hfresh) hother
  have hcomments : commentsSince "6F96-8B86" commentedPost ≠ [] := by decide +kernel
  exact ⟨os, d, delivered, hr, hfetch, fun hall => hcomments (hkeys.mp hall)⟩

end ZipR
