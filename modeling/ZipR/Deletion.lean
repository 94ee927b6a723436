import ZipR.Feed
import ZipR.Handlers
import ZipR.Selections

/-! # Deleting and fetching again

The deleting screen drops a row from its own list and does not fetch; a fetch would find the record
gone.  `delete_agrees_with_refetch`: the two lists are the same.

The screen selects by ids up to canonical equivalence and the database by keys.  That these agree,
and that no two rows share an id, is `Invariant.decodePosts` and the law of UUID strings. -/

namespace ZipR

open JsonTree Reactive

variable {P : Platform}

/-! ### The store -/

theorem Invariant.snapshotRecords_perm {d : Database} {b : Board} (h : Invariant d b)
    {snapshot : Json} (hs : Enumerates (d.tree.get ["Posts"]) snapshot) :
    (snapshotRecords snapshot).Perm (d.tree.get ["Posts"]).entries := by
  obtain ⟨kvs, hkvs⟩ := h.represents.postsNode
  rw [hkvs] at hs
  obtain ⟨records, rfl, hp⟩ := hs.ofEntries
  rw [snapshotRecords_ofEntries, hkvs, Json.entries_ofEntries]
  exact hp

/-- A record of the store decodes, and its key is the id of its post. -/
theorem Invariant.recordPost_eq_some {d : Database} {b : Board} (h : Invariant d b)
    {record : String × Json} (hr : record ∈ (d.tree.get ["Posts"]).entries) {p : Post}
    (hp : recordPost record = some p) : p.id = some record.1 ∧ record.1 ∈ d.created := by
  obtain ⟨q, hq, hv⟩ := h.mem_posts_iff.mp hr
  obtain ⟨hcreated, hid, hcomplete⟩ := h.post record.1 q hq
  have hdecode : recordPost record = some q.readBack := by
    rw [recordPost, hv]
    exact hcomplete.decode_stored
  obtain rfl := Option.some.inj (hp.symm.trans hdecode)
  exact ⟨hid, hcreated⟩

/-- Both writes of a deletion are executed, and take one entry out of the `Posts` node. -/
theorem exists_deletion {d : Database} {b : Board} (h : Invariant d b) {id : String}
    (hid : id ∈ d.created) :
    ∃ d', (postedMachine P).Run d (PostController.deletePostandItsComments id) [] d' ∧
      (d'.tree.get ["Posts"]).entries = Json.eraseKey id (d.tree.get ["Posts"]).entries := by
  have hpost := h.exists_step (u := .removePost id) hid
  have hnext := h.step (u := .removePost id) hid
  have hcomments := hnext.exists_step (u := .removeComments id) List.mem_cons_self
  refine ⟨_, .snoc (.single (Machine.restrict_step.mpr ⟨hpost, trivial⟩))
    (Machine.restrict_step.mpr ⟨hcomments, trivial⟩), ?_⟩
  obtain ⟨kvs, hkvs⟩ := h.represents.postsNode
  have hframe := (d.tree.update ["Posts", id] .null).get_update_of_diverge
    (p := ["Comments", id]) (q := ["Posts"]) (.head (by decide) _ _) .null
  have herase := d.tree.get_update_append ["Posts"] [id] .null
  rw [hkvs, Json.update_singleton] at herase
  simp only [Update.ref, Update.value]
  rw [hframe]
  rw [List.singleton_append] at herase
  rw [herase, hkvs, Json.entries_ofEntries, Json.entries_ofEntries, Json.setKey]
  simp [Json.isNull]

/-! ### The screen -/

/-- How the screen tells posts apart. -/
def rowKey (P : Platform) (p : Post) : Option String := p.id.map P.canonical

/-- Different ids of a fetched store are never equivalent. -/
theorem rowKey_nodup {posts : List Post} (huuid : ∀ p ∈ posts, ∃ id, p.id = some id ∧ P.UUID id)
    (h : (posts.map Post.id).Nodup) : (posts.map (rowKey P)).Nodup := by
  refine h.of_map.map_on fun x hx y hy hxy => ?_
  obtain ⟨i, hi, hui⟩ := huuid x hx
  obtain ⟨j, hj, huj⟩ := huuid y hy
  simp only [rowKey, hi, hj, Option.map_some, Option.some.injEq] at hxy
  have hid : x.id = y.id := by rw [hi, hj, P.canonical_uuid i j hui huj hxy]
  exact List.inj_on_of_nodup_map h hx hy hid

/-- What a fetch gives a user's screen: the user's posts, each once, newest first. -/
theorem exists_usersPosts {us : List Update} {os : List Unit} {d : Database}
    (h : (postedMachine P).Run .empty us os d) {snapshot : Json}
    (hs : Enumerates (d.tree.get ["Posts"]) snapshot) (self : PostController) (userName : String) :
    ∃ usersPosts, filterPostsByUserandDate P (self.fetched snapshot).posts userName =
        .ok usersPosts ∧
      usersPosts.Perm ((PostController.decodePosts (snapshotRecords snapshot)).filter fun p =>
        P.same p.author userName) ∧
      (usersPosts.map (rowKey P)).Nodup ∧ NewestFirst P usersPosts := by
  have hinv := invariant_of_run h.of_restrict
  have hrecords := hinv.snapshotRecords_perm hs
  obtain ⟨hids, hmem⟩ := hinv.decodePosts hrecords
  have hposted : ∀ p ∈ PostController.decodePosts (snapshotRecords snapshot),
      (∃ id, p.id = some id ∧ P.UUID id) ∧ Timed P p := by
    intro p hp
    obtain ⟨id, q, hq, rfl⟩ := (hmem p).mp hp
    obtain ⟨huuid, -, htimed⟩ := posted_posts h hq
    exact ⟨⟨id, (hinv.post id q hq).2.1, huuid⟩, htimed⟩
  rw [self.fetched_posts]
  have htimed : ∀ p ∈ (PostController.decodePosts (snapshotRecords snapshot)).filter fun p =>
      P.same p.author userName, Timed P p :=
    fun p hp => (hposted p (List.mem_of_mem_filter hp)).2
  obtain ⟨usersPosts, hok, hperm, hnewest⟩ := orderPostsByDate_of_timed htimed
  refine ⟨usersPosts, hok, hperm, ?_, hnewest⟩
  have hnodup : ((PostController.decodePosts (snapshotRecords snapshot)).map Post.id).Nodup := by
    have hkeys := (d.tree.keyed ["Posts"]).perm hrecords
    rw [hids, ← Function.comp_def some, ← List.map_map]
    exact hkeys.1.map (Option.some_injective _)
  have hrows := rowKey_nodup (P := P) (fun p hp => (hposted p hp).1) hnodup
  rw [(hperm.map (rowKey P)).nodup_iff]
  exact hrows.sublist (List.filter_sublist.map _)

theorem send_removal {u : Update} {id : String} (hid : isValidKey id = true)
    (hu : u ∈ PostController.deletePostandItsComments id) : App.send u = .ok (.write u) := by
  simp only [PostController.deletePostandItsComments, List.mem_cons, List.not_mem_nil,
    or_false] at hu
  rcases hu with rfl | rfl
  · rw [App.send, Update.write, PostController.removePost_eq, child_of_isValidKey hid]
    rfl
  · rw [App.send, Update.write, PostController.removeComments_eq, child_of_isValidKey hid]
    rfl

/-- A swipe on a row whose id is a key sends both writes. -/
theorem commitDelete_eq_ok {app : App} {row : ℕ} {p : Post} {id : String}
    (hp : app.recentActivity.usersPosts[row]? = some p) (hid : p.id = some id)
    (hvalid : isValidKey id = true) (hcontroller : app.recentActivity.postController ≠ none) :
    app.commitDelete P row =
      .ok (((app.removeRows P (some id)).post .Deletion).reloadRecentActivity,
        (PostController.deletePostandItsComments id).map .write) := by
  obtain ⟨r, hr⟩ := Option.ne_none_iff_exists'.mp hcontroller
  have hsend : (app.removeRows P (some id)).sendDeletion (some id) =
      .ok ((PostController.deletePostandItsComments id).map .write) := by
    have hr' : (app.removeRows P (some id)).recentActivity.postController = some r := hr
    have hpost := send_removal (u := .removePost id) hvalid List.mem_cons_self
    have hcomments := send_removal (u := .removeComments id) hvalid (by
      simp [PostController.deletePostandItsComments])
    unfold App.sendDeletion
    simp only [hr', Option.getD_some, PostController.deletePostandItsComments, List.mapM_cons,
      List.mapM_nil, hpost, hcomments]
    rfl
  unfold App.commitDelete
  simp only [hp, hid, hsend]
  rfl

/-- Among elements told apart by `f`, dropping those that agree with one drops that one. -/
theorem filter_ne_perm {α β : Type} [DecidableEq β] (f : α → β) {l rest : List α} {x : α}
    (hp : l.Perm (x :: rest)) (hnd : (l.map f).Nodup) :
    (l.filter fun y => f y ≠ f x).Perm rest := by
  have hnd' := (hp.map f).nodup_iff.mp hnd
  rw [List.map_cons, List.nodup_cons] at hnd'
  have hrest : rest.filter (fun y => f y ≠ f x) = rest := by
    refine List.filter_eq_self.mpr fun y hy => ?_
    have hne : f y ≠ f x := fun he => hnd'.1 (he ▸ List.mem_map_of_mem hy)
    simpa using hne
  have hfilter := hp.filter fun y => decide (f y ≠ f x)
  rwa [List.filter_cons_of_neg (by simp), hrest] at hfilter

/-- **Deleting agrees with fetching again.**  Take any store filled through the app and the user's
posts as a fetch of it gives them.  Deleting any row takes exactly its record out of the `Posts`
node, and leaves on the screen, up to order, what a fetch of the new store gives: the same posts,
each once, all by the author and newest first. -/
theorem delete_agrees_with_refetch {us : List Update} {os : List Unit} {d : Database}
    (h : (postedMachine P).Run .empty us os d) {snapshot : Json}
    (hs : Enumerates (d.tree.get ["Posts"]) snapshot) (self : PostController) (userName : String) :
    ∃ usersPosts, filterPostsByUserandDate P (self.fetched snapshot).posts userName =
        .ok usersPosts ∧
      ∀ (app : App) (row : ℕ), app.recentActivity.usersPosts = usersPosts →
        app.recentActivity.postController ≠ none → row < usersPosts.length →
        ∃ p id v app' d', usersPosts[row]? = some p ∧ p.id = some id ∧
          recordPost (id, v) = some p ∧
          app.commitDelete P row =
            .ok (app', (PostController.deletePostandItsComments id).map .write) ∧
          Database.machine.Run d (PostController.deletePostandItsComments id) [] d' ∧
          (d.tree.get ["Posts"]).entries.Perm ((id, v) :: (d'.tree.get ["Posts"]).entries) ∧
          ∀ (snapshot' : Json) (self' : PostController),
            Enumerates (d'.tree.get ["Posts"]) snapshot' →
            ∃ refetched, filterPostsByUserandDate P (self'.fetched snapshot').posts userName =
                .ok refetched ∧
              app'.recentActivity.usersPosts.Perm refetched ∧ refetched.Nodup ∧
              (∀ q ∈ refetched, P.same q.author userName) ∧
              NewestFirst P app'.recentActivity.usersPosts ∧ NewestFirst P refetched := by
  have hinv := invariant_of_run h.of_restrict
  have hrecords := hinv.snapshotRecords_perm hs
  obtain ⟨usersPosts, hok, hperm, hnodup, hnewest⟩ := exists_usersPosts h hs self userName
  refine ⟨usersPosts, hok, ?_⟩
  intro app row happ hcontroller hrow
  have hp : usersPosts[row]? = some usersPosts[row] := List.getElem?_eq_getElem hrow
  generalize usersPosts[row] = p at hp
  -- the record on the row
  have hmem := hperm.mem_iff.mp (List.mem_of_getElem? hp)
  obtain ⟨hdecoded, hauthor⟩ := List.mem_filter.mp hmem
  obtain ⟨⟨id, v⟩, hrecord, hrp⟩ := mem_decodePosts.mp hdecoded
  have hentry : (id, v) ∈ (d.tree.get ["Posts"]).entries := hrecords.mem_iff.mp hrecord
  obtain ⟨hid, hcreated⟩ := hinv.recordPost_eq_some hentry hrp
  obtain ⟨d', hrun, hentries⟩ := exists_deletion (P := P) hinv hcreated
  have herase := (d.tree.keyed ["Posts"]).perm_eraseKey hentry
  rw [← hentries] at herase
  have hpapp : app.recentActivity.usersPosts[row]? = some p := by rw [happ]; exact hp
  have hcommit := commitDelete_eq_ok (P := P) hpapp hid (hinv.valid_created hcreated) hcontroller
  refine ⟨p, id, v, _, d', hp, hid, hrp, hcommit, hrun.of_restrict, herase, ?_⟩
  intro snapshot' self' hs'
  -- what is left, on the screen and in the store
  obtain ⟨refetched, hok', hperm', hnodup', hnewest'⟩ :=
    exists_usersPosts (h.append hrun) hs' self' userName
  have hrecords' := (invariant_of_run (h.append hrun).of_restrict).snapshotRecords_perm hs'
  have hless : (snapshotRecords snapshot).Perm ((id, v) :: snapshotRecords snapshot') :=
    (hrecords.trans herase).trans (hrecords'.symm.cons _)
  have hsplit : usersPosts.Perm (p :: refetched) := by
    have hfilter := filter_decodePosts_perm (Q := fun q => P.same q.author userName) hless hrp
      (of_decide_eq_true hauthor)
    exact (hperm.trans hfilter).trans (hperm'.symm.cons p)
  have hleft : (((app.removeRows P (some id)).post
      .Deletion).reloadRecentActivity).recentActivity.usersPosts =
        usersPosts.filter fun q => rowKey P q ≠ rowKey P p := by
    simp [App.reloadRecentActivity, App.removeRows, happ, hid, rowKey]
  refine ⟨refetched, hok', ?_, hnodup'.of_map _, ?_, ?_, hnewest'⟩
  · rw [hleft]
    exact filter_ne_perm (rowKey P) hsplit hnodup
  · intro q hq
    simpa using (List.mem_filter.mp (hperm'.mem_iff.mp hq)).2
  · rw [hleft]
    exact hnewest.sublist List.filter_sublist

/-- A screen that shows the posts. -/
def screenOf (usersPosts : List Post) : App :=
  { App.firstLaunch with recentActivity := ⟨some 0, usersPosts, usersPosts⟩ }

/-- The user has three posts, another user one; the middle row is deleted. -/
theorem delete_agrees_with_refetch_sample : ∃ os d usersPosts app' d' refetched,
    (postedMachine .decimal).Run .empty sampleUpdates os d ∧
    filterPostsByUserandDate .decimal (PostController.new.fetched (d.tree.get ["Posts"])).posts "A" =
      .ok usersPosts ∧
    usersPosts.map Post.id = [some "A11C-93F2", some "0DD5-11AA", some "6F96-8B86"] ∧
    (screenOf usersPosts).commitDelete .decimal 1 =
      .ok (app', (PostController.deletePostandItsComments "0DD5-11AA").map .write) ∧
    app'.recentActivity.usersPosts.map Post.id = [some "A11C-93F2", some "6F96-8B86"] ∧
    Database.machine.Run d (PostController.deletePostandItsComments "0DD5-11AA") [] d' ∧
    filterPostsByUserandDate .decimal (PostController.new.fetched (d'.tree.get ["Posts"])).posts "A" =
      .ok refetched ∧
    app'.recentActivity.usersPosts.Perm refetched := by
  obtain ⟨os, d, hr, posts, hposts, hids, ⟨app, ws⟩, hdelete, hleft⟩ := sample_run (Q := fun t =>
    ∃ posts ∈ (filterPostsByUserandDate .decimal
      (PostController.new.fetched (t.get ["Posts"])).posts "A").toOption,
    posts.map Post.id = [some "A11C-93F2", some "0DD5-11AA", some "6F96-8B86"] ∧
    ∃ r ∈ ((screenOf posts).commitDelete .decimal 1).toOption,
      r.1.recentActivity.usersPosts.map Post.id = [some "A11C-93F2", some "6F96-8B86"])
    (by decide +kernel)
  obtain ⟨usersPosts, hok, hall⟩ := delete_agrees_with_refetch hr (Enumerates.refl _) .new "A"
  rw [hok] at hposts
  obtain rfl : usersPosts = posts := Option.some.inj hposts
  obtain ⟨p, id, v, app', d', hp, hid, -, hcommit, hrun, -, hrefetch⟩ :=
    hall (screenOf usersPosts) 1 rfl (by simp [screenOf]) (by
      have hlength := congrArg List.length hids
      simp only [List.length_map, List.length_cons, List.length_nil] at hlength
      omega)
  obtain rfl : id = "0DD5-11AA" := by
    have hrow := congrArg (fun ids => ids[1]?) hids
    simpa [hp, hid] using hrow
  obtain ⟨refetched, hfetch, hperm, -⟩ := hrefetch _ .new (Enumerates.refl _)
  rw [hcommit] at hdelete
  obtain ⟨rfl, -⟩ := Prod.mk.inj (Option.some.inj hdelete)
  exact ⟨os, d, usersPosts, app', d', refetched, hr, hok, hids, hcommit, hleft, hrun, hfetch, hperm⟩

end ZipR
