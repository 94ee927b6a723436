import ZipR.Refresh

/-! # Two refreshes of the message board

`updateViews` reads the user's location anew and keeps it in `usersLat` and `usersLong`;
`postButtonWasTapped` reuses what was kept.  Both write it only when their fetch completes.

* **Cached.** The kept location is that of the shared user.  A step that does not change the user
  keeps it so (`Cached.step`).
* **Filled.** Since the user last changed, a fetch of `updateViews` has been answered with records;
  then the location is cached (`cached_of_filled`).
* `refreshes_agree`: the two refreshes give the same posts if and only if no post lies in one of the
  two areas only; in particular once the board is filled. -/

namespace ZipR

open Reactive JsonTree App

/-- The post passes the comparisons with a location given by its strings. -/
def Near (P : Platform) (lat long : String) (p : Post) : Prop :=
  ∃ usersLat usersLong, P.double lat = some usersLat ∧ P.double long = some usersLong ∧
    Kept P usersLat usersLong p

/-- The feed of located and dated posts. -/
theorem exists_feed {P : Platform} (self : PostController)
    (h : ∀ p ∈ self.posts, Located P p ∧ Dated P p) (lat long : String) :
    ∃ feed, self.parsePosts P lat long = .ok feed ∧
      ∀ p, p ∈ feed ↔ p ∈ self.posts ∧ Near P lat long p := by
  by_cases hknown : ∃ x y, P.double lat = some x ∧ P.double long = some y
  · obtain ⟨usersLat, usersLong, hlat, hlong⟩ := hknown
    have hparse := parsePosts_of_located self hlat hlong fun p hp => (h p hp).1
    obtain ⟨feed, hok⟩ := orderPostsByDate_ok_iff.mpr (.inr fun p hp =>
      (h p (List.mem_of_mem_filter (p := fun p => Kept P usersLat usersLong p) hp)).2)
    refine ⟨feed, hparse.trans hok, fun p => ?_⟩
    rw [(orderPostsByDate_perm hok).mem_iff, List.mem_filter, decide_eq_true_eq]
    simp [Near, hlat, hlong]
  · refine ⟨[], parsePosts_of_unknown self hknown, fun p => iff_of_false (by simp) ?_⟩
    rintro ⟨-, x, y, hlat, hlong, -⟩
    exact hknown ⟨x, y, hlat, hlong⟩

/-- A post is near the place it was made at: rounding is monotone and keeps the place itself. -/
theorem near_self {P : Platform} {coordinate : Coordinate} (hlat : P.Finite coordinate.latitude)
    (hlong : P.Finite coordinate.longitude) {p : Post}
    (hplat : p.lat = some (P.string coordinate.latitude))
    (hplong : p.long = some (P.string coordinate.longitude)) :
    Near P (P.string coordinate.latitude) (P.string coordinate.longitude) p := by
  have h₁ := P.double_string _ hlat
  have h₂ := P.double_string _ hlong
  have hround := P.round_finite _ hlat
  have hround' := P.round_finite _ hlong
  refine ⟨_, _, h₁, h₂, _, _, by simpa [hplat] using h₁, by simpa [hplong] using h₂, ⟨?_, ?_⟩, ?_, ?_⟩
  · exact FloatingPoint.Rounding.le_add hround zero_le_one
  · exact FloatingPoint.Rounding.sub_le hround zero_le_one
  · exact FloatingPoint.Rounding.le_add hround' zero_le_one
  · exact FloatingPoint.Rounding.sub_le hround' zero_le_one

namespace App

variable {P : Platform} {app app' : App}

/-! ### The kept location -/

/-- `postController.user?.latitude ?? ""`. -/
def userLat (controller : PostController) : String :=
  (controller.user.bind CurrentUser.latitude).getD ""

/-- `postController.user?.longitude ?? ""`. -/
def userLong (controller : PostController) : String :=
  (controller.user.bind CurrentUser.longitude).getD ""

/-- The kept location is that of the shared user. -/
structure Cached (app : App) : Prop where
  lat : app.messageBoard.usersLat = userLat app.shared
  long : app.messageBoard.usersLong = userLong app.shared

/-- The event does not change the shared user. -/
def KeepsUser (app : App) : Event → Prop
  | .launch _ => False
  | .signOutTapped signOutError => signOutError = true
  | .locationReply request (some _) => ∀ completion,
      app.locationRequests[request]? = some completion →
      app.recipient completion ≠ some app.tabBar.postController
  | _ => True

theorem Cached.congr (h : app.Cached)
    (hlat : app'.messageBoard.usersLat = app.messageBoard.usersLat)
    (hlong : app'.messageBoard.usersLong = app.messageBoard.usersLong)
    (huser : app'.shared.user = app.shared.user) : app'.Cached where
  lat := by rw [hlat, h.lat, userLat, userLat, huser]
  long := by rw [hlong, h.long, userLong, userLong, huser]

/-- A completion of `updateViews` keeps the user's location, and no other touches it. -/
theorem complete_location {call : FetchCall} (hc : app.complete P call = .ok app') :
    (call.completion = .updateViews ∧
      app'.messageBoard.usersLat = userLat (app.controllers call.postController) ∧
      app'.messageBoard.usersLong = userLong (app.controllers call.postController)) ∨
    (call.completion ≠ .updateViews ∧
      app'.messageBoard.usersLat = app.messageBoard.usersLat ∧
      app'.messageBoard.usersLong = app.messageBoard.usersLong) := by
  by_cases hviews : call.completion = .updateViews
  · refine .inl ⟨hviews, ?_⟩
    unfold complete at hc
    simp only [hviews] at hc
    cases hp : (app.controllers call.postController).parsePosts P
        (((app.controllers call.postController).user.bind CurrentUser.latitude).getD "")
        (((app.controllers call.postController).user.bind CurrentUser.longitude).getD "") with
    | error e => rw [hp] at hc; cases hc
    | ok localPosts =>
        rw [hp] at hc
        obtain rfl := Except.ok.inj hc
        exact ⟨rfl, rfl⟩
  · refine .inr ⟨hviews, ?_⟩
    rcases complete_cases hc with ⟨_, _, _, hx, -⟩ | ⟨_, -, -, rfl⟩ | ⟨_, -, -, rfl⟩
    · exact absurd hx hviews
    · exact ⟨rfl, rfl⟩
    · exact ⟨rfl, rfl⟩

/-- The controller of a fetch is the shared one, so its user is the shared user. -/
theorem filled_user (hw : app.Wired) {call : FetchCall} (hcall : call ∈ app.fetches)
    (posts : List Post) : (((app.setPosts call.postController posts).removeFetch
      call.id).controllers call.postController).user = app.shared.user := by
  rw [removeFetch_controllers, setPosts_user, hw.fetches call hcall, shared]

/-- Completing a filled fetch keeps the user of the shared controller. -/
theorem complete_shared_user {call : FetchCall} {records : List (String × Json)}
    (hc : ((app.setPosts call.postController (PostController.decodePosts records)).removeFetch
      call.id).complete P call = .ok app') : app'.shared.user = app.shared.user := by
  obtain ⟨hsame, -⟩ := sameSession_complete hc
  have htab : app'.tabBar = app.tabBar := hsame.tabBar
  rw [shared, htab, hsame.user]
  exact setPosts_user ..

/-- An answer with records for `updateViews` caches the location. -/
theorem cached_of_complete (hw : app.Wired) {call : FetchCall} (hcall : call ∈ app.fetches)
    (hviews : call.completion = .updateViews) {records : List (String × Json)}
    (hc : ((app.setPosts call.postController (PostController.decodePosts records)).removeFetch
      call.id).complete P call = .ok app') : app'.Cached := by
  obtain ⟨-, hlat, hlong⟩ := (complete_location hc).resolve_right fun h => h.1 hviews
  have huser := (filled_user hw hcall (PostController.decodePosts records)).trans
    (complete_shared_user hc).symm
  constructor
  · rw [hlat, userLat, userLat, huser]
  · rw [hlong, userLong, userLong, huser]

/-- A completion of `updateViews` has run. -/
def Refreshed (os : List Output) : Prop := ∃ call ∈ completions os, call.completion = .updateViews

/-- **What a step does to the kept location**: a process start sets it to the origin, a completion of
`updateViews` to the location of the shared user, and nothing else touches it. -/
theorem location_step (hw : app.Wired) (hn : app.Numbered) {e : Event} {os : List Output}
    (hs : (machine P).Step app e os app') :
    (IsLaunch e ∧ ¬ Refreshed os ∧ app'.messageBoard.usersLat = "0" ∧
      app'.messageBoard.usersLong = "0") ∨
    (¬ IsLaunch e ∧ Refreshed os ∧ app'.messageBoard.usersLat = userLat app.shared ∧
      app'.messageBoard.usersLong = userLong app.shared) ∨
    (¬ IsLaunch e ∧ ¬ Refreshed os ∧
      app'.messageBoard.usersLat = app.messageBoard.usersLat ∧
      app'.messageBoard.usersLong = app.messageBoard.usersLong) := by
  rcases completions_step hs with hnil | ⟨call, hcall, records, rfl, hone⟩
  · have hnot : ¬ Refreshed os := by
      rintro ⟨call, hcall, -⟩
      rw [hnil] at hcall
      cases hcall
    by_cases hlaunch : IsLaunch e
    · cases e with
      | launch signOutError =>
          obtain ⟨rfl, -⟩ := Prod.mk.inj (Except.ok.inj hs.2)
          exact .inl ⟨trivial, hnot, rfl, rfl⟩
      | _ => exact hlaunch.elim
    · refine .inr (.inr ⟨hlaunch, hnot, ?_⟩)
      cases dataStep hs with
      | launch _ => exact absurd trivial hlaunch
      | issue hi => exact hi.location
      | drop _ => exact ⟨rfl, rfl⟩
      | @complete call records _ hcall _ =>
          -- the completion would be among the outputs
          rcases hn.answer_cases hcall hs with ⟨hd, -, -⟩ | ⟨_, -, -, rfl⟩
          · exact absurd rfl (hd records)
          · cases hnil
      | block =>
          obtain ⟨_, _, _, hblock, -⟩ := mainQueueBlock_eq app
          rw [hblock]
          exact ⟨rfl, rfl⟩
      | @delete row p _ => exact (Issued.post (app.removeRows P p.id) .Deletion).location
      | select _ => exact ⟨rfl, rfl⟩
  · right
    rcases hn.answer_cases hcall hs with ⟨hd, -, -⟩ | ⟨records', he, hc, -⟩
    · exact absurd rfl (hd records)
    · have hrefreshed : Refreshed os ↔ call.completion = .updateViews := by
        simp [Refreshed, hone]
      have huser := filled_user hw hcall (PostController.decodePosts records')
      rcases complete_location hc with ⟨hviews, hlat, hlong⟩ | ⟨hviews, hlat, hlong⟩
      · refine .inl ⟨id, hrefreshed.mpr hviews, ?_, ?_⟩
        · rw [hlat, userLat, userLat, huser]
        · rw [hlong, userLong, userLong, huser]
      · exact .inr ⟨id, fun h => hviews (hrefreshed.mp h), hlat, hlong⟩

/-- What keeps the user keeps the user. -/
theorem user_of_keepsUser {e : Event} {os : List Output} (hs : (machine P).Step app e os app')
    (hk : app.KeepsUser e) : app'.shared.user = app.shared.user := by
  have hen := hs.1
  cases e with
  | launch _ => exact hk.elim
  | tabBarDidAppear =>
      obtain ⟨_, _, rfl, -⟩ := tabBarDidAppear_cases hs.2
      rfl
  | signOutTapped signOutError =>
      have herror : signOutError = true := hk
      rcases signOutTapped_cases hs.2 with ⟨-, rfl⟩ | ⟨hno, -⟩
      · rfl
      · cases herror.symm.trans hno
  | didSignIn login account =>
      obtain ⟨_, rfl, -⟩ := didSignIn_cases hs.2
      rfl
  | locationReply request coordinate =>
      obtain ⟨rfl, -⟩ := Prod.mk.inj (Except.ok.inj hs.2)
      rw [shared, locationReply_tabBar]
      cases coordinate with
      | none => exact locationReply_none_user ..
      | some coordinate =>
          obtain ⟨completion, hc⟩ : ∃ completion, app.locationRequests[request]? = some completion :=
            ⟨_, List.getElem?_eq_getElem hen⟩
          rw [locationReply_user hc, if_neg (hk completion hc)]
          rfl
  | _ =>
      obtain ⟨hsame, -⟩ := sameSession_of_quiet hs trivial
      rw [shared, hsame.tabBar]
      exact hsame.user _

/-- **A step that keeps the user keeps the location cached.** -/
theorem Cached.step (h : app.Cached) (hw : app.Wired) (hn : app.Numbered) {e : Event}
    {os : List Output} (hs : (machine P).Step app e os app') (hk : app.KeepsUser e) :
    app'.Cached := by
  have huser := user_of_keepsUser hs hk
  rcases location_step hw hn hs with ⟨hlaunch, -⟩ | ⟨-, -, hlat, hlong⟩ | ⟨-, -, hlat, hlong⟩
  · cases e with
    | launch _ => exact hk.elim
    | _ => exact hlaunch.elim
  · constructor
    · rw [hlat, userLat, userLat, huser]
    · rw [hlong, userLong, userLong, huser]
  · exact h.congr hlat hlong huser

/-! ### What the two refreshes show -/

/-- What `updateViews` would make of the posts just fetched. -/
theorem complete_updateViews (hw : app.Wired) {call : FetchCall} (hcall : call ∈ app.fetches)
    {records : List (String × Json)}
    (hgood : ∀ p ∈ PostController.decodePosts records, Located P p ∧ Dated P p) :
    ∃ updated, (app.answered call (.value (.object records))).1.complete P
        { call with completion := .updateViews } = .ok updated ∧
      ∀ p, p ∈ updated.messageBoard.localPosts ↔ p ∈ PostController.decodePosts records ∧
        Near P (userLat app.shared) (userLong app.shared) p := by
  rw [answered_dictionary]
  obtain ⟨feed, hok, hfeed⟩ := exists_feed
    (((app.setPosts call.postController (PostController.decodePosts records)).removeFetch
      call.id).controllers call.postController)
    (by simpa using hgood) (userLat app.shared) (userLong app.shared)
  rw [removeFetch_controllers, setPosts_posts] at hfeed
  unfold complete
  simp only [filled_user hw hcall]
  rw [userLat, userLong] at hok
  rw [hok]
  exact ⟨_, rfl, hfeed⟩

/-- What the refresh after a post makes of them. -/
theorem complete_postButtonWasTapped (hw : app.Wired) {call : FetchCall} (hcall : call ∈ app.fetches)
    (hcompletion : call.completion = .postButtonWasTapped) {records : List (String × Json)}
    (hgood : ∀ p ∈ PostController.decodePosts records, Located P p ∧ Dated P p)
    (hc : ((app.setPosts call.postController (PostController.decodePosts records)).removeFetch
      call.id).complete P call = .ok app') :
    ∀ p, p ∈ app'.messageBoard.localPosts ↔ p ∈ PostController.decodePosts records ∧
      Near P app.messageBoard.usersLat app.messageBoard.usersLong p := by
  rcases complete_cases hc with ⟨_, _, _, hx, -⟩ | ⟨localPosts, -, hl, rfl⟩ | ⟨_, hx, -⟩
  · rw [hcompletion] at hx
    cases hx
  · obtain ⟨feed, hok, hfeed⟩ := exists_feed
      (((app.setPosts call.postController (PostController.decodePosts records)).removeFetch
        call.id).controllers call.postController)
      (by simpa using hgood) app.messageBoard.usersLat app.messageBoard.usersLong
    have hboard : ((app.setPosts call.postController
        (PostController.decodePosts records)).removeFetch call.id).messageBoard.postController =
          some call.postController := by
      rw [hw.fetches call hcall]
      exact hw.messageBoard
    unfold parsePostsAgain at hl
    rw [hboard] at hl
    obtain rfl : localPosts = feed := Except.ok.inj (hl.symm.trans hok)
    rw [removeFetch_controllers, setPosts_posts] at hfeed
    exact hfeed
  · rw [hcompletion] at hx
    cases hx

end App

namespace World

variable {P : Platform} {w : World}

/-- The event does not change the user of this client's tabs. -/
def KeepsUser (c : ℕ) (w : World) (i : ℕ × Event) : Prop :=
  i.1 = c → (w.clients c).KeepsUser i.2

/-- Since the user of this client's tabs last changed, a fetch of `updateViews` has been answered
with records. -/
def Filled (P : Platform) (c : ℕ) (w : World) : Prop :=
  ∃ v call records o v' js ps, (machine P).Reachable v ∧ call ∈ (v.clients c).fetches ∧
    call.completion = .updateViews ∧
    (machine P).Step v (c, .fetchAnswer call.id (.value (.object records))) o v' ∧
    ((machine P).restrict (KeepsUser c)).Run v' js ps w

theorem client_of_reachable (h : (machine P).Reachable w) (c : ℕ) :
    (App.machine P).Reachable (w.clients c) := by
  obtain ⟨w₀, is, os, h₀, hr⟩ := h
  exact client_reachable h₀ hr c

/-- **A filled board has the user's location.** -/
theorem cached_of_filled {c : ℕ} (h : Filled P c w) : (w.clients c).Cached := by
  obtain ⟨v, call, records, o, v', js, ps, hreach, hcall, hviews, hs, hrun⟩ := h
  obtain ⟨o', hclient, -, -, -⟩ := step_inv hs
  have hv := client_of_reachable hreach c
  have hcached : (v'.clients c).Cached := by
    rcases (numbered_of_reachable hv).answer_cases hcall hclient with ⟨hd, -⟩ | ⟨records', _, hc, -⟩
    · exact absurd rfl (hd records)
    · exact cached_of_complete (wired_of_reachable hv) hcall hviews hc
  refine (hrun.invariant (P := fun u => (machine P).Reachable u ∧ (u.clients c).Cached) ?_
    ⟨hreach.step hs, hcached⟩).2
  rintro u i q u' ⟨hu, hcached⟩ hstep
  obtain ⟨hstep, hkeeps⟩ := Machine.restrict_step.mp hstep
  refine ⟨hu.step hstep, ?_⟩
  obtain ⟨q', hnext, -, hothers, -⟩ := step_inv hstep
  by_cases hc : i.1 = c
  · subst hc
    have hclient := client_of_reachable hu i.1
    exact hcached.step (wired_of_reachable hclient) (numbered_of_reachable hclient) hnext (hkeeps rfl)
  · rw [hothers c (Ne.symm hc)]
    exact hcached

/-- The part of a run neither starts the client's process nor completes a fetch of `updateViews`. -/
def Unrefreshed (c : ℕ) (is : List (ℕ × Event)) (os : List (ℕ × Output)) : Prop :=
  (∀ i ∈ is, i.1 = c → ¬ IsLaunch i.2) ∧ ¬ Refreshed (ofClient c os)

/-- Where the run last found the client: at the origin, when its process started, or where its user
was when a fetch of `updateViews` last completed. -/
def KeptSince (P : Platform) (c : ℕ) (w₀ : World) (is : List (ℕ × Event)) (w : World)
    (lat long : String) : Prop :=
  (∃ pre ps v post qs, is = pre ++ post ∧ (machine P).Run w₀ pre ps v ∧
    (machine P).Run v post qs w ∧ Unrefreshed c post qs ∧
    (pre = [] ∨ ∃ pre' e, pre = pre' ++ [(c, e)] ∧ IsLaunch e) ∧ lat = "0" ∧ long = "0") ∨
  ∃ pre ps v i o v' post qs, is = pre ++ i :: post ∧ (machine P).Run w₀ pre ps v ∧
    (machine P).Step v i o v' ∧ (machine P).Run v' post qs w ∧ Refreshed (ofClient c o) ∧
    Unrefreshed c post qs ∧ lat = userLat (v.clients c).shared ∧
    long = userLong (v.clients c).shared

theorem Unrefreshed.nil (c : ℕ) : Unrefreshed c [] [] := by
  refine ⟨fun _ hi => ?_, ?_⟩
  · cases hi
  · rintro ⟨_, hcall, -⟩
    cases hcall

theorem Unrefreshed.snoc {c : ℕ} {is : List (ℕ × Event)} {os o : List (ℕ × Output)}
    {i : ℕ × Event} (h : Unrefreshed c is os) (hi : i.1 = c → ¬ IsLaunch i.2)
    (ho : ¬ Refreshed (ofClient c o)) : Unrefreshed c (is ++ [i]) (os ++ o) := by
  refine ⟨fun j hj => ?_, ?_⟩
  · rcases List.mem_append.mp hj with hj | hj
    · exact h.1 j hj
    · obtain rfl := List.mem_singleton.mp hj
      exact hi
  · rintro ⟨call, hcall, hviews⟩
    rw [ofClient_append, completions_append] at hcall
    rcases List.mem_append.mp hcall with hcall | hcall
    · exact h.2 ⟨call, hcall, hviews⟩
    · exact ho ⟨call, hcall, hviews⟩

theorem KeptSince.snoc {c : ℕ} {w₀ w' : World} {is : List (ℕ × Event)} {lat long : String}
    (h : KeptSince P c w₀ is w lat long) {i : ℕ × Event} {o : List (ℕ × Output)}
    (hs : (machine P).Step w i o w') (hi : i.1 = c → ¬ IsLaunch i.2)
    (ho : ¬ Refreshed (ofClient c o)) : KeptSince P c w₀ (is ++ [i]) w' lat long := by
  rcases h with ⟨pre, ps, v, post, qs, rfl, hr, hr', hquiet, hpre, hlat, hlong⟩ |
    ⟨pre, ps, v, j, o', v', post, qs, rfl, hr, hj, hr', href, hquiet, hlat, hlong⟩
  · exact .inl ⟨pre, ps, v, post ++ [i], qs ++ o, by simp, hr, hr'.snoc hs, hquiet.snoc hi ho, hpre,
      hlat, hlong⟩
  · exact .inr ⟨pre, ps, v, j, o', v', post ++ [i], qs ++ o, by simp, hr, hj, hr'.snoc hs, href,
      hquiet.snoc hi ho, hlat, hlong⟩

/-- **The kept location is where the run last found the client.** -/
theorem keptSince_of_run {w₀ : World} (h₀ : (machine P).start w₀) {is : List (ℕ × Event)}
    {os : List (ℕ × Output)} (h : (machine P).Run w₀ is os w) (c : ℕ) :
    KeptSince P c w₀ is w (w.clients c).messageBoard.usersLat
      (w.clients c).messageBoard.usersLong := by
  refine h.history (P := fun is _ w => KeptSince P c w₀ is w
    (w.clients c).messageBoard.usersLat (w.clients c).messageBoard.usersLong) ?_ ?_
  · obtain ⟨flag, account, signOutError, hc⟩ := h₀.2 c
    rw [hc]
    exact .inl ⟨[], [], w₀, [], [], rfl, .refl, .refl, .nil c, .inl rfl, rfl, rfl⟩
  · intro is os w i o w' hr ih hs
    obtain ⟨o', hclient, rfl, hothers, -⟩ := step_inv hs
    obtain ⟨d, e⟩ := i
    by_cases hc : c = d
    · subst hc
      have hreach := client_reachable h₀ hr c
      have hout : ofClient c (o'.map (Prod.mk c)) = o' := ofClient_map_self c o'
      rcases location_step (wired_of_reachable hreach) (numbered_of_reachable hreach) hclient with
        ⟨hlaunch, -, hlat, hlong⟩ | ⟨-, href, hlat, hlong⟩ | ⟨hlaunch, hnot, hlat, hlong⟩
      · rw [hlat, hlong]
        exact .inl ⟨is ++ [(c, e)], _, w', [], [], by simp, hr.snoc hs, .refl, .nil c,
          .inr ⟨is, e, rfl, hlaunch⟩, rfl, rfl⟩
      · rw [hlat, hlong]
        exact .inr ⟨is, os, w, (c, e), _, w', [], [], rfl, hr, hs, .refl, hout.symm ▸ href, .nil c,
          rfl, rfl⟩
      · rw [hlat, hlong]
        exact ih.snoc hs (fun _ => hlaunch) (hout.symm ▸ hnot)
    · have hout : ofClient c (o'.map (Prod.mk d)) = [] := ofClient_map_ne (Ne.symm hc) o'
      rw [hothers c hc]
      refine ih.snoc hs (fun he => absurd he.symm hc) ?_
      rw [hout]
      exact (Unrefreshed.nil c).2

/-- The posts of an answer are located and dated. -/
theorem good_of_answer (h : (machine P).Reachable w) {records : List (String × Json)}
    (he : Enumerates (w.database.tree.get ["Posts"]) (.object records)) :
    ∀ p ∈ PostController.decodePosts records, Located P p ∧ Dated P p := by
  obtain ⟨w₀, is, os, h₀, hr⟩ := h
  have hinv := worldInvariant_of_run h₀ hr
  obtain ⟨qs, hposted⟩ := hinv.run
  intro p hp
  obtain ⟨id, new, hboard, -, rfl⟩ := hinv.created_of_answer he p hp
  obtain ⟨-, hlocated, htimed⟩ := posted_posts hposted hboard
  exact ⟨hlocated, htimed.dated⟩

/-- **When the two refreshes agree.**  In every run, when the fetch of `postButtonWasTapped` is
answered with records, take the location at which the run last found the client.  The board shows
the posts `updateViews` would show in that state, if and only if each post answered is near both
that location and the user's, or near neither.  So it does when the board is filled, and then a post
made at the user's location is on it. -/
theorem refreshes_agree {w₀ : World} (h₀ : (machine P).start w₀) {is : List (ℕ × Event)}
    {os : List (ℕ × Output)} (h : (machine P).Run w₀ is os w) {c : ℕ} {call : FetchCall}
    (hcall : call ∈ (w.clients c).fetches) (hcompletion : call.completion = .postButtonWasTapped)
    {records : List (String × Json)} {o : List (ℕ × Output)} {w' : World}
    (hs : (machine P).Step w (c, .fetchAnswer call.id (.value (.object records))) o w') :
    ∃ updated lat long, ((w.clients c).answered call (.value (.object records))).1.complete P
        { call with completion := .updateViews } = .ok updated ∧
      KeptSince P c w₀ is w lat long ∧
      ((∀ p, p ∈ (w'.clients c).messageBoard.localPosts ↔ p ∈ updated.messageBoard.localPosts) ↔
        ∀ p ∈ PostController.decodePosts records, (Near P lat long p ↔
          Near P (userLat (w.clients c).shared) (userLong (w.clients c).shared) p)) ∧
      (Filled P c w →
        (∀ p, p ∈ (w'.clients c).messageBoard.localPosts ↔ p ∈ updated.messageBoard.localPosts) ∧
        ∀ user, (w.clients c).shared.user = some user →
          ∀ p ∈ PostController.decodePosts records, p.lat = user.latitude →
            p.long = user.longitude → p ∈ (w'.clients c).messageBoard.localPosts) := by
  obtain ⟨o', hclient, -, -, -⟩ := step_inv hs
  have hreach := client_reachable h₀ h c
  have hw := wired_of_reachable hreach
  have hgood := good_of_answer ⟨w₀, is, os, h₀, h⟩ hs.1.2
  obtain ⟨updated, hok, hupdated⟩ := complete_updateViews hw hcall hgood
  have hlocal : ∀ p, p ∈ (w'.clients c).messageBoard.localPosts ↔
      p ∈ PostController.decodePosts records ∧
        Near P (w.clients c).messageBoard.usersLat (w.clients c).messageBoard.usersLong p := by
    rcases (numbered_of_reachable hreach).answer_cases hcall hclient with ⟨hd, -⟩ | ⟨_, he, hc, -⟩
    · exact absurd rfl (hd records)
    · obtain rfl := Json.object.inj (Answer.value.inj he)
      exact complete_postButtonWasTapped hw hcall hcompletion hgood hc
  refine ⟨updated, _, _, hok, keptSince_of_run h₀ h c, ?_, fun hfilled => ?_⟩
  · simp only [hlocal, hupdated]
    exact forall_congr' fun p => and_congr_right_iff
  · have hcached := cached_of_filled hfilled
    refine ⟨fun p => ?_, ?_⟩
    · rw [hlocal, hupdated, hcached.lat, hcached.long]
    · intro user huser p hp hplat hplong
      obtain ⟨name, coordinate, hlat, hlong, rfl⟩ := (worldInvariant_of_run h₀ h).located c _ user huser
      have hnear := near_self hlat hlong hplat hplong
      rw [hlocal, hcached.lat, hcached.long, userLat, userLong, huser]
      exact ⟨hp, hnear⟩

/-! One client and its first post. -/

/-- The store is empty at login, and the client posts. -/
def firstPost : List (ℕ × Event) :=
  signedIn ++ [(0, .fetchAnswer 0 (.value .null)),
    (0, .postButtonTapped sampleForm 1580774400 "6F96-8B86")]

/-- The refresh after the post does not show it, at the place where it was made. -/
theorem created_post_missing : ∃ w w' o updated, (machine .decimal).Reachable w ∧
    (w.clients 0).shared.user = some (loggedUser .decimal "A" home) ∧
    ⟨1, 0, .postButtonWasTapped⟩ ∈ (w.clients 0).fetches ∧
    (machine .decimal).Step w
      (0, .fetchAnswer 1 (.value (.object [storedSample "6F96-8B86"]))) o w' ∧
    ((w.clients 0).answered ⟨1, 0, .postButtonWasTapped⟩
      (.value (.object [storedSample "6F96-8B86"]))).1.complete .decimal ⟨1, 0, .updateViews⟩ =
        .ok updated ∧
    updated.messageBoard.localPosts = [(sampleNew.post "6F96-8B86").readBack] ∧
    (w'.clients 0).messageBoard.localPosts = [] := by
  obtain ⟨os, w, hr, huser, hcall, hen, ⟨w', o⟩, hs, hlocal, hupdated⟩ := Machine.Run.exists_of_exec
    (M := machine .decimal) (s := emptyWorld) (l := firstPost)
    (Q := fun w _ => (w.clients 0).shared.user = some (loggedUser .decimal "A" home) ∧
      ⟨1, 0, .postButtonWasTapped⟩ ∈ (w.clients 0).fetches ∧
      (machine .decimal).enabled w
        (0, .fetchAnswer 1 (.value (.object [storedSample "6F96-8B86"]))) ∧
      ∃ r ∈ ((machine .decimal).step w
        (0, .fetchAnswer 1 (.value (.object [storedSample "6F96-8B86"])))).toOption,
        (r.1.clients 0).messageBoard.localPosts = [] ∧
        (((w.clients 0).answered ⟨1, 0, .postButtonWasTapped⟩
          (.value (.object [storedSample "6F96-8B86"]))).1.complete .decimal
            ⟨1, 0, .updateViews⟩).toOption.map (fun app => app.messageBoard.localPosts) =
          some [(sampleNew.post "6F96-8B86").readBack])
    (by decide +kernel) (by decide +kernel)
  obtain ⟨updated, hupdated, hposts⟩ := Option.map_eq_some_iff.mp hupdated
  refine ⟨w, w', o, updated, ⟨_, _, _, start_emptyWorld _, hr⟩, huser, hcall,
    Machine.Step.of_mem_toOption hen hs, ?_, hposts, hlocal⟩
  cases hc : ((w.clients 0).answered ⟨1, 0, .postButtonWasTapped⟩
      (.value (.object [storedSample "6F96-8B86"]))).1.complete .decimal ⟨1, 0, .updateViews⟩ with
  | error e => rw [hc] at hupdated; cases hupdated
  | ok app =>
      rw [hc] at hupdated
      exact congrArg _ (Option.some.inj hupdated)

/-- Here the fetch of the login is answered after the post was sent, and fills the board. -/
theorem refreshes_agree_sample : ∃ w w' o, (machine .decimal).Reachable w ∧ Filled .decimal 0 w ∧
    (machine .decimal).Step w
      (0, .fetchAnswer 1 (.value (.object [storedSample "6F96-8B86"]))) o w' ∧
    (sampleNew.post "6F96-8B86").readBack ∈ (w'.clients 0).messageBoard.localPosts := by
  obtain ⟨os, v, hr, hviews, hen, ⟨w, o⟩, hs, hcall, huser, hen', ⟨w', o'⟩, hs', -⟩ :=
    Machine.Run.exists_of_exec (M := machine .decimal) (s := emptyWorld)
    (l := signedIn ++ [(0, .postButtonTapped sampleForm 1580774400 "6F96-8B86")])
    (Q := fun v _ => ⟨0, 0, .updateViews⟩ ∈ (v.clients 0).fetches ∧
      (machine .decimal).enabled v
        (0, .fetchAnswer 0 (.value (.object [storedSample "6F96-8B86"]))) ∧
      ∃ r ∈ ((machine .decimal).step v
        (0, .fetchAnswer 0 (.value (.object [storedSample "6F96-8B86"])))).toOption,
        ⟨1, 0, .postButtonWasTapped⟩ ∈ (r.1.clients 0).fetches ∧
        (r.1.clients 0).shared.user = some (loggedUser .decimal "A" home) ∧
        (machine .decimal).enabled r.1
          (0, .fetchAnswer 1 (.value (.object [storedSample "6F96-8B86"]))) ∧
        ∃ r' ∈ ((machine .decimal).step r.1
          (0, .fetchAnswer 1 (.value (.object [storedSample "6F96-8B86"])))).toOption, True)
    (by decide +kernel) (by decide +kernel)
  have hv : (machine .decimal).Reachable v := ⟨_, _, _, start_emptyWorld _, hr⟩
  have hfill := Machine.Step.of_mem_toOption hen hs
  have hanswer := Machine.Step.of_mem_toOption hen' hs'
  have hfilled : Filled .decimal 0 w :=
    ⟨v, ⟨0, 0, .updateViews⟩, _, o, w, [], [], hv, hviews, rfl, hfill, .refl⟩
  obtain ⟨_, _, _, -, -, -, hagree⟩ :=
    refreshes_agree (start_emptyWorld _) (hr.snoc hfill) hcall rfl hanswer
  refine ⟨w, w', o', hv.step hfill, hfilled, hanswer, (hagree hfilled).2 _ huser _ ?_ ?_ ?_⟩ <;>
    decide +kernel

end World
end ZipR
