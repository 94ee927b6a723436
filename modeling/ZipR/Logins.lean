import ZipR.Session

/-! # Which logins reach the tabs

A login screen is presented by the tab bar controller or by `signOutTapped`, and writes the user to
the controller it was given.

* `Presented`: the event of the run that presented a login screen.  The tab bar controller gives its
  own controller, `signOutTapped` a new one: a screen holds the controller of the tabs if and only if
  the tab bar controller presented it (`presented_iff`).
* `LastReply`: the reply whose user the tabs still hold.  The tabs hold a user if and only if such a
  reply made it (`lastReply_iff`).
* `login_reaches_tabs_iff`: what this says of a login.  The screen presented by `signOutTapped` loses
  the user (`login_after_signOut_lost`). -/

namespace ZipR

open Reactive

namespace App

variable {P : Platform} {app app' s₀ : App} {is : List Event} {os : List Output}

/-! ### The screens -/

/-- What a step does to the login screens of a running process. -/
theorem logins_step (hw : app.Wired) {e : Event} {o : List Output}
    (hs : (machine P).Step app e o app') (he : ¬ IsLaunch e) :
    app'.tabBar = app.tabBar ∧ (app'.logins = app.logins ∨
      e = .tabBarDidAppear ∧ app'.logins = app.logins ++ [⟨some app.tabBar.postController⟩] ∨
      e ≠ .tabBarDidAppear ∧ ∃ r, r ≠ app.tabBar.postController ∧
        app'.logins = app.logins ++ [⟨some r⟩]) := by
  cases e with
  | launch signOutError => exact absurd trivial he
  | tabBarDidAppear =>
      obtain ⟨_, logins, rfl, -, rfl | rfl⟩ := tabBarDidAppear_cases hs.2
      · exact ⟨rfl, .inl (List.append_nil _)⟩
      · exact ⟨rfl, .inr (.inl ⟨rfl, rfl⟩)⟩
  | signOutTapped signOutError =>
      rcases signOutTapped_cases hs.2 with ⟨-, rfl⟩ | ⟨-, rfl⟩
      · exact ⟨rfl, .inl rfl⟩
      · have hne : app.nextRef ≠ app.tabBar.postController := Nat.ne_of_gt hw.allocated
        exact ⟨rfl, .inr (.inr ⟨by simp, app.nextRef, hne, rfl⟩)⟩
  | didSignIn login account =>
      obtain ⟨_, rfl, -⟩ := didSignIn_cases hs.2
      exact ⟨rfl, .inl rfl⟩
  | locationReply request coordinate =>
      obtain ⟨rfl, -⟩ := Prod.mk.inj (Except.ok.inj hs.2)
      exact ⟨by simp, .inl (by simp)⟩
  | _ =>
      obtain ⟨hsame, -⟩ := sameSession_of_quiet hs trivial
      exact ⟨hsame.tabBar, .inl hsame.logins⟩

/-- The run made the login screen with this index on this event, and has not started the process
since. -/
def Presented (P : Platform) (s₀ : App) (is : List Event) (login : ℕ) (e : Event) : Prop :=
  ∃ pre ps t o t' post, is = pre ++ e :: post ∧ (machine P).Run s₀ pre ps t ∧
    (machine P).Step t e o t' ∧ t.logins.length = login ∧ t'.logins.length = login + 1 ∧
    ∀ e' ∈ post, ¬ IsLaunch e'

theorem presented_snoc_iff (h : (machine P).Run s₀ is os app) {e : Event} {o : List Output}
    (hs : (machine P).Step app e o app') {login : ℕ} {e₀ : Event} :
    Presented P s₀ (is ++ [e]) login e₀ ↔ (¬ IsLaunch e ∧ Presented P s₀ is login e₀) ∨
      (e₀ = e ∧ app.logins.length = login ∧ app'.logins.length = login + 1) := by
  constructor
  · rintro ⟨pre, ps, t, q, t', post, heq, hr, hstep, hlength, hlength', hpost⟩
    rcases List.eq_nil_or_concat post with rfl | ⟨post, e', rfl⟩
    · obtain ⟨rfl, rfl⟩ : is = pre ∧ e = e₀ := by simpa using List.append_inj' heq rfl
      obtain ⟨rfl, -⟩ := h.unique hr
      obtain ⟨rfl, -⟩ := hs.unique hstep
      exact .inr ⟨rfl, hlength, hlength'⟩
    · obtain ⟨rfl, rfl⟩ : is = pre ++ e₀ :: post ∧ e = e' := by
        have heq' : is ++ [e] = (pre ++ e₀ :: post) ++ [e'] := by simpa using heq
        simpa using List.append_inj' heq' rfl
      simp only [List.concat_eq_append, List.forall_mem_append] at hpost
      exact .inl ⟨hpost.2 e (List.mem_singleton_self e), pre, ps, t, q, t', post, rfl, hr, hstep,
        hlength, hlength', hpost.1⟩
  · rintro (⟨he, pre, ps, t, q, t', post, rfl, hr, hstep, hlength, hlength', hpost⟩ |
      ⟨rfl, hlength, hlength'⟩)
    · refine ⟨pre, ps, t, q, t', post ++ [e], by simp, hr, hstep, hlength, hlength', ?_⟩
      rw [List.forall_mem_append]
      exact ⟨hpost, by simpa using he⟩
    · exact ⟨is, os, app, o, app', [], rfl, h, hs, hlength, hlength', fun _ hm => by cases hm⟩

/-- **Who holds the controller of the tabs**: the login screens the tab bar controller presented. -/
theorem presented_iff (h₀ : (machine P).start s₀) (h : (machine P).Run s₀ is os app) (login : ℕ) :
    Presented P s₀ is login .tabBarDidAppear ↔
      app.logins[login]? = some ⟨some app.tabBar.postController⟩ := by
  refine h.history (P := fun is _ app => Presented P s₀ is login .tabBarDidAppear ↔
    app.logins[login]? = some ⟨some app.tabBar.postController⟩) ?_ ?_
  · obtain ⟨flag, account, signOutError, rfl⟩ := h₀
    refine iff_of_false ?_ (by simp [launch])
    rintro ⟨pre, _, _, _, _, post, heq, -⟩
    simp at heq
  · intro is os app e o app' hr ih hs
    rw [presented_snoc_iff hr hs, ih]
    by_cases he : IsLaunch e
    · cases e with
      | launch signOutError =>
          obtain ⟨rfl, -⟩ := Prod.mk.inj (Except.ok.inj hs.2)
          simp [IsLaunch, launch]
      | _ => exact he.elim
    · obtain ⟨htab, hlogins⟩ := logins_step (wired_of_reachable ⟨s₀, is, os, h₀, hr⟩) hs he
      rw [htab]
      rcases hlogins with hsame | ⟨rfl, hnew⟩ | ⟨hne, r, hr', hnew⟩
      · rw [hsame]
        refine (or_iff_left ?_).trans (and_iff_right he)
        rintro ⟨-, hlength, hlength'⟩
        omega
      · rw [hnew, List.getElem?_append]
        simp only [he, not_false_iff, true_and, List.length_append, List.length_singleton]
        split
        · exact or_iff_left (by omega)
        · rename_i hle
          rw [List.getElem?_eq_none (not_lt.mp hle)]
          by_cases hlast : app.logins.length = login
          · subst hlast
            simp
          · rw [List.getElem?_eq_none (by simp; omega)]
            simp [hlast]
      · rw [hnew, List.getElem?_append]
        refine (or_iff_left fun hlast => hne hlast.1.symm).trans ((and_iff_right he).trans ?_)
        split
        · exact Iff.rfl
        · rename_i hle
          rw [List.getElem?_eq_none (not_lt.mp hle)]
          refine iff_of_false (by simp) fun hget => ?_
          obtain ⟨_, hlast⟩ := List.getElem?_eq_some_iff.mp hget
          simp only [List.getElem_singleton, LoginViewController.mk.injEq, Option.some.injEq] at hlast
          exact hr' hlast

/-! ### The replies -/

/-- The completion writes to the controller of the tabs: it was passed by the tab bar controller, or
by a login screen the tab bar controller presented. -/
def Reaches (P : Platform) (s₀ : App) (is : List Event) : LocationCompletion → Prop
  | .viewDidAppear _ => True
  | .didSignIn login _ => Presented P s₀ is login .tabBarDidAppear

/-- The event changes the user of the tabs: a process start, a sign-out, or a reply that reaches
them. -/
def Disturbs (P : Platform) (s₀ : App) (is : List Event) (app : App) : Event → Prop
  | .launch _ => True
  | .signOutTapped signOutError => signOutError = false
  | .locationReply request (some _) => ∃ completion,
      app.locationRequests[request]? = some completion ∧ Reaches P s₀ is completion
  | _ => False

/-- A reply that reached the tabs made this user, and nothing has disturbed it since. -/
inductive LastReply (P : Platform) (s₀ : App) : List Event → CurrentUser → Prop
  | reply {is : List Event} {os : List Output} {t : App} {request : ℕ} {coordinate : Coordinate}
      {completion : LocationCompletion} : (machine P).Run s₀ is os t →
      t.locationRequests[request]? = some completion → Reaches P s₀ is completion →
      LastReply P s₀ (is ++ [.locationReply request (some coordinate)])
        (loggedUser P completion.name coordinate)
  | later {is : List Event} {os : List Output} {t : App} {e : Event} {user : CurrentUser} :
      LastReply P s₀ is user → (machine P).Run s₀ is os t → ¬ Disturbs P s₀ is t e →
      LastReply P s₀ (is ++ [e]) user

theorem reaches_iff (h₀ : (machine P).start s₀) (h : (machine P).Run s₀ is os app)
    (completion : LocationCompletion) :
    Reaches P s₀ is completion ↔ app.recipient completion = some app.tabBar.postController := by
  cases completion with
  | viewDidAppear name => exact iff_of_true trivial rfl
  | didSignIn login name =>
      rw [Reaches, presented_iff h₀ h, recipient, Option.bind_eq_some_iff]
      constructor
      · intro hget
        exact ⟨_, hget, rfl⟩
      · rintro ⟨⟨controller⟩, hget, rfl⟩
        exact hget

theorem lastReply_snoc_iff (h : (machine P).Run s₀ is os app) {e : Event} {user : CurrentUser} :
    LastReply P s₀ (is ++ [e]) user ↔
      (∃ request coordinate completion, e = .locationReply request (some coordinate) ∧
        app.locationRequests[request]? = some completion ∧ Reaches P s₀ is completion ∧
        user = loggedUser P completion.name coordinate) ∨
      LastReply P s₀ is user ∧ ¬ Disturbs P s₀ is app e := by
  constructor
  · intro hlast
    generalize hjs : is ++ [e] = js at hlast
    cases hlast with
    | @reply is' os' t request coordinate completion hr hreq hreach =>
        obtain ⟨rfl, rfl⟩ : is = is' ∧ e = .locationReply request (some coordinate) := by
          simpa using List.append_inj' hjs rfl
        obtain ⟨rfl, -⟩ := h.unique hr
        exact .inl ⟨request, coordinate, completion, rfl, hreq, hreach, rfl⟩
    | @later is' os' t e' _ hlast hr hnot =>
        obtain ⟨rfl, rfl⟩ : is = is' ∧ e = e' := by simpa using List.append_inj' hjs rfl
        obtain ⟨rfl, -⟩ := h.unique hr
        exact .inr ⟨hlast, hnot⟩
  · rintro (⟨request, coordinate, completion, rfl, hreq, hreach, rfl⟩ | ⟨hlast, hnot⟩)
    · exact .reply h hreq hreach
    · exact .later hlast h hnot

/-- What a step does to the user of the tabs. -/
theorem user_step_iff (h₀ : (machine P).start s₀) (h : (machine P).Run s₀ is os app) {e : Event}
    {o : List Output} (hs : (machine P).Step app e o app') (user : CurrentUser) :
    app'.shared.user = some user ↔
      (∃ request coordinate completion, e = .locationReply request (some coordinate) ∧
        app.locationRequests[request]? = some completion ∧ Reaches P s₀ is completion ∧
        user = loggedUser P completion.name coordinate) ∨
      app.shared.user = some user ∧ ¬ Disturbs P s₀ is app e := by
  have hw := wired_of_reachable ⟨s₀, is, os, h₀, h⟩
  have hen := hs.1
  cases e with
  | launch signOutError =>
      obtain ⟨rfl, -⟩ := Prod.mk.inj (Except.ok.inj hs.2)
      simp [Disturbs, shared, launch, PostController.new]
  | signOutTapped signOutError =>
      rcases signOutTapped_cases hs.2 with ⟨rfl, rfl⟩ | ⟨rfl, rfl⟩
      · simp [Disturbs]
      · have hne : app.tabBar.postController ≠ app.nextRef := ne_of_lt hw.allocated
        simp [Disturbs, shared, setController, setUser, hw.profile, hne]
  | locationReply request coordinate =>
      obtain ⟨rfl, -⟩ := Prod.mk.inj (Except.ok.inj hs.2)
      rw [shared, locationReply_tabBar]
      cases coordinate with
      | none =>
          rw [locationReply_none_user]
          simp [Disturbs, shared]
      | some coordinate =>
          obtain ⟨completion, hc⟩ : ∃ completion, app.locationRequests[request]? = some completion :=
            ⟨_, List.getElem?_eq_getElem hen⟩
          rw [locationReply_user hc]
          by_cases hreach : Reaches P s₀ is completion
          · rw [if_pos ((reaches_iff h₀ h completion).mp hreach)]
            simp [Disturbs, hc, hreach, eq_comm]
          · rw [if_neg fun hr => hreach ((reaches_iff h₀ h completion).mpr hr)]
            simp [Disturbs, hc, hreach, shared]
  | tabBarDidAppear =>
      obtain ⟨_, _, rfl, -⟩ := tabBarDidAppear_cases hs.2
      simp [Disturbs, shared]
  | didSignIn login account =>
      obtain ⟨_, rfl, -⟩ := didSignIn_cases hs.2
      simp [Disturbs, shared]
  | _ =>
      obtain ⟨hsame, -⟩ := sameSession_of_quiet hs trivial
      rw [shared, hsame.tabBar, hsame.user]
      simp [Disturbs, shared]

/-- **Whom the tabs hold**: the user the last reply to them made. -/
theorem lastReply_iff (h₀ : (machine P).start s₀) (h : (machine P).Run s₀ is os app)
    (user : CurrentUser) : LastReply P s₀ is user ↔ app.shared.user = some user := by
  refine h.history (P := fun is _ app => LastReply P s₀ is user ↔ app.shared.user = some user) ?_ ?_
  · obtain ⟨flag, account, signOutError, rfl⟩ := h₀
    refine iff_of_false (fun hlast => ?_) (by simp [shared, launch, PostController.new])
    generalize hjs : ([] : List Event) = js at hlast
    cases hlast <;> simp at hjs
  · intro is os app e o app' hr ih hs
    rw [lastReply_snoc_iff hr, user_step_iff h₀ hr hs, ih]

/-- **Which logins reach the tabs.**  When the completion of a login runs with a coordinate, some
account of the captured name signed in on that login screen, all three tabs hold the controller
of the tab bar controller, and that controller holds the user just logged in if and only if the
tab bar controller presented the login screen, or the last reply to the tabs made that very user. -/
theorem login_reaches_tabs_iff (h₀ : (machine P).start s₀) (h : (machine P).Run s₀ is os app)
    {request login : ℕ} {name : String}
    (hreq : app.locationRequests[request]? = some (.didSignIn login name)) {coordinate : Coordinate}
    {o : List Output} (hs : (machine P).Step app (.locationReply request (some coordinate)) o app') :
    (∃ account, .didSignIn login account ∈ is ∧ account.displayName = some name) ∧
    (app'.messageBoard.postController = some app'.tabBar.postController ∧
      app'.recentActivity.postController = some app'.tabBar.postController ∧
      app'.profile.postController = some app'.tabBar.postController) ∧
    (app'.shared.user = some (loggedUser P name coordinate) ↔
      Presented P s₀ is login .tabBarDidAppear ∨ LastReply P s₀ is (loggedUser P name coordinate)) := by
  have hw' := (wired_of_reachable ⟨s₀, is, os, h₀, h⟩ : app.Wired).step hs
  refine ⟨pending_login h₀ h (List.mem_of_getElem? hreq), ⟨hw'.messageBoard, hw'.recentActivity,
    hw'.profile⟩, ?_⟩
  rw [user_step_iff h₀ h hs, ← lastReply_iff h₀ h]
  by_cases hreach : Presented P s₀ is login .tabBarDidAppear
  · refine iff_of_true (.inl ⟨request, coordinate, _, rfl, hreq, hreach, rfl⟩) (.inl hreach)
  · have hnot : ¬ Reaches P s₀ is (.didSignIn login name) := hreach
    simp [Disturbs, hreq, hnot, hreach]

/-- The login screen `signOutTapped` presents has a controller of its own. -/
theorem login_after_signOut_lost : (machine .decimal).start firstLaunch ∧ ∃ os s,
    (machine .decimal).Run firstLaunch
      (loginA ++ [.locationReply 0 (some home), .signOutTapped false] ++
        [.didSignIn 1 accountB, .locationReply 0 (some home)]) os s ∧
    s.currentUser = some accountB ∧ s.shared.user = none :=
  ⟨start_firstLaunch _,
    Machine.Run.exists_of_exec (by decide +kernel) (by decide +kernel)⟩

/-- After a sign-out and a new start, the tab bar controller presents the login screen again. -/
def loginAgain : List Event :=
  loginA ++ [.locationReply 0 (some home), .signOutTapped false, .launch false, .tabBarDidAppear,
    .didSignIn 0 accountB]

theorem login_reaches_tabs_sample : ∃ os s s',
    (machine .decimal).Run firstLaunch loginAgain os s ∧
    (machine .decimal).Step s (.locationReply 0 (some home)) [] s' ∧
    s'.shared.user = some (loggedUser .decimal "B" home) := by
  obtain ⟨os, s, hr, hreq, hlogin⟩ := Machine.Run.exists_of_exec (M := machine .decimal)
    (s := firstLaunch) (l := loginAgain)
    (Q := fun s _ => s.locationRequests[0]? = some (.didSignIn 0 "B") ∧
      s.logins[0]? = some ⟨some s.tabBar.postController⟩) (by decide +kernel) (by decide +kernel)
  have hs : (machine .decimal).Step s (.locationReply 0 (some home)) []
      (s.locationReply .decimal 0 (some home)) :=
    ⟨(List.getElem?_eq_some_iff.mp hreq).1, rfl⟩
  have hpresented := (presented_iff (start_firstLaunch _) hr 0).mpr hlogin
  exact ⟨os, s, _, hr, hs,
    (login_reaches_tabs_iff (start_firstLaunch _) hr hreq hs).2.2.mpr (.inl hpresented)⟩

end App
end ZipR
