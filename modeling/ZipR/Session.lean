import ZipR.Handlers

/-! # Who is signed in

`CurrentUser` lives in the post controllers, the account in Firebase Auth.  The two are kept in
step by hand: sign-out clears the one controller, and location completions set it later, with a
name they captured earlier.

* `Wired`: the tabs and the detail screens hold the controller of the tab bar controller.
* `user_hasSignedIn`: every name a controller holds is that of an account that has signed in.
* `identity_current_iff`: the shared user stays the account signed in, as long as no reply and no
  sign-in is late (`Timely`).  A reply after a sign-out is (`stale_identity`). -/

namespace ZipR

open Reactive

namespace App

variable {P : Platform} {app app' : App}

/-! ### One controller for all tabs -/

/-- All screens hold the controller of the tab bar controller. -/
structure Wired (app : App) : Prop where
  messageBoard : app.messageBoard.postController = some app.tabBar.postController
  recentActivity : app.recentActivity.postController = some app.tabBar.postController
  profile : app.profile.postController = some app.tabBar.postController
  details : ∀ d ∈ app.details, d.postController = some app.tabBar.postController
  fetches : ∀ call ∈ app.fetches, call.postController = app.tabBar.postController
  allocated : app.tabBar.postController < app.nextRef

theorem wired_launch (app : App) (signOutError : Bool) : (app.launch signOutError).Wired where
  messageBoard := rfl
  recentActivity := rfl
  profile := rfl
  details _ h := by cases h
  fetches _ h := by cases h
  allocated := Nat.zero_lt_one

/-- The two states agree on who is signed in, on who is shown as signed in, and on the wiring. -/
structure SameSession (app app' : App) : Prop where
  currentUser : app'.currentUser = app.currentUser
  user : ∀ r, (app'.controllers r).user = (app.controllers r).user
  nextRef : app'.nextRef = app.nextRef
  tabBar : app'.tabBar = app.tabBar
  messageBoard : app'.messageBoard.postController = app.messageBoard.postController
  recentActivity : app'.recentActivity.postController = app.recentActivity.postController
  profile : app'.profile = app.profile
  locationRequests : app'.locationRequests = app.locationRequests
  logins : app'.logins = app.logins

theorem SameSession.refl (app : App) : SameSession app app :=
  ⟨rfl, fun _ => rfl, rfl, rfl, rfl, rfl, rfl, rfl, rfl⟩

theorem sameSession_fetchPosts (app : App) (r : Ref) (completion : FetchCompletion) :
    SameSession app (app.fetchPosts r completion) :=
  ⟨rfl, fun r' => fetchPosts_user _ r r' _, rfl, rfl, rfl, rfl, rfl, rfl, rfl⟩

theorem sameSession_complete {call : FetchCall} (hc : app.complete P call = .ok app') :
    SameSession app app' ∧ app'.details = app.details := by
  rcases complete_cases hc with ⟨_, _, _, -, -, rfl⟩ | ⟨_, -, -, rfl⟩ | ⟨_, -, -, rfl⟩ <;>
    exact ⟨⟨rfl, fun _ => rfl, rfl, rfl, rfl, rfl, rfl, rfl, rfl⟩, rfl⟩

/-- The events that have nothing to do with signing in or out. -/
def Quiet : Event → Prop
  | .launch _ | .tabBarDidAppear | .signOutTapped _ | .didSignIn _ _ | .locationReply _ _ => False
  | _ => True

/-- A process start. -/
def IsLaunch : Event → Prop
  | .launch _ => True
  | _ => False

/-- **Quiet events keep the session**, and a detail screen gets the controller of the board. -/
theorem sameSession_of_quiet {e : Event} {os : List Output}
    (hs : (machine P).Step app e os app') (hq : Quiet e) : SameSession app app' ∧
      ∀ d ∈ app'.details, d ∈ app.details ∨ d.postController = app.messageBoard.postController := by
  obtain ⟨hen, hs⟩ := hs
  cases e with
  | launch | tabBarDidAppear | signOutTapped | didSignIn | locationReply => exact hq.elim
  | messageBoardDidLoad | messageBoardDidAppear =>
      obtain ⟨rfl, -⟩ := Prod.mk.inj (Except.ok.inj hs)
      exact ⟨⟨rfl, fun _ => rfl, rfl, rfl, rfl, rfl, rfl, rfl, rfl⟩, fun _ hd => .inl hd⟩
  | recentActivityWillAppear =>
      rcases recentActivityWillAppear_cases hs with rfl | ⟨_, -, rfl⟩
      · exact ⟨.refl _, fun _ hd => .inl hd⟩
      · exact ⟨sameSession_fetchPosts .., fun _ hd => .inl hd⟩
  | fetchAnswer id answer =>
      obtain ⟨call, -, -, ⟨-, rfl, -⟩ | ⟨records, -, hc, -⟩⟩ := fetchAnswer_cases hen.1 hs
      · exact ⟨⟨rfl, fun _ => rfl, rfl, rfl, rfl, rfl, rfl, rfl, rfl⟩, fun _ hd => .inl hd⟩
      · obtain ⟨h, hd⟩ := sameSession_complete hc
        refine ⟨⟨h.currentUser, fun r => ?_, h.nextRef, h.tabBar, h.messageBoard,
          h.recentActivity, h.profile, h.locationRequests, h.logins⟩, fun d hd' => .inl (hd ▸ hd')⟩
        exact (h.user r).trans (setPosts_user ..)
  | mainQueueBlock =>
      obtain ⟨rfl, -⟩ := Prod.mk.inj (Except.ok.inj hs)
      obtain ⟨_, _, _, hblock, -⟩ := mainQueueBlock_eq app
      rw [hblock]
      exact ⟨⟨rfl, fun _ => rfl, rfl, rfl, rfl, rfl, rfl, rfl, rfl⟩, fun _ hd => .inl hd⟩
  | commitDelete row =>
      obtain ⟨p, -, rfl, -⟩ := commitDelete_cases hs
      constructor
      · constructor <;> simp [reloadRecentActivity, removeRows]
      · intro d hd
        left
        simpa [reloadRecentActivity, removeRows] using hd
  | selectRow row =>
      obtain ⟨p, -, rfl, -⟩ := selectRow_cases hs
      refine ⟨⟨rfl, fun _ => rfl, rfl, rfl, rfl, rfl, rfl, rfl, rfl⟩, fun d hd => ?_⟩
      rcases List.mem_append.mp hd with hd | hd
      · exact .inl hd
      · exact .inr (List.mem_singleton.mp hd ▸ rfl)
  | postButtonTapped form now uuid =>
      rcases postButtonTapped_cases hs with ⟨rfl, -⟩ | ⟨_, _, -, -, rfl, -⟩
      · exact ⟨.refl _, fun _ hd => .inl hd⟩
      · exact ⟨sameSession_fetchPosts .., fun _ hd => .inl hd⟩
  | postComment detail commentText uuid =>
      obtain ⟨rfl, -⟩ := postComment_cases hs
      exact ⟨.refl _, fun _ hd => .inl hd⟩

theorem mem_fetches_post {name : NotificationName} {call : FetchCall}
    (h : call ∈ (app.post name).fetches) :
    call ∈ app.fetches ∨ app.messageBoard.postController = some call.postController := by
  have hall : (app.post name).messageBoard = app.messageBoard ∧
      ∀ call ∈ (app.post name).fetches,
        call ∈ app.fetches ∨ app.messageBoard.postController = some call.postController := by
    refine post_induction (Q := fun app' => app'.messageBoard = app.messageBoard ∧
      ∀ call ∈ app'.fetches, call ∈ app.fetches ∨
        app.messageBoard.postController = some call.postController) name
      ⟨rfl, fun _ h => .inl h⟩ ?_
    rintro app' r ⟨hboard, hcalls⟩ hr
    refine ⟨hboard, fun call hcall => ?_⟩
    rcases List.mem_append.mp hcall with hcall | hcall
    · exact hcalls call hcall
    · obtain rfl := List.mem_singleton.mp hcall
      exact .inr (hboard ▸ hr)
  exact hall.2 call h

/-- New fetches are made on the controller of the board or of recent activity. -/
theorem mem_fetches_step {e : Event} {os : List Output} (hs : (machine P).Step app e os app')
    {call : FetchCall} (h : call ∈ app'.fetches) : call ∈ app.fetches ∨
      app.messageBoard.postController = some call.postController ∨
      app.recentActivity.postController = some call.postController := by
  obtain ⟨hen, hs⟩ := hs
  cases e with
  | launch signOutError =>
      obtain ⟨rfl, -⟩ := Prod.mk.inj (Except.ok.inj hs)
      cases h
  | tabBarDidAppear =>
      obtain ⟨_, _, rfl, -⟩ := tabBarDidAppear_cases hs
      exact .inl h
  | messageBoardDidLoad | messageBoardDidAppear =>
      obtain ⟨rfl, -⟩ := Prod.mk.inj (Except.ok.inj hs)
      exact .inl h
  | recentActivityWillAppear =>
      rcases recentActivityWillAppear_cases hs with rfl | ⟨r, hr, rfl⟩
      · exact .inl h
      · rcases List.mem_append.mp h with h | h
        · exact .inl h
        · obtain rfl := List.mem_singleton.mp h
          exact .inr (.inr hr)
  | signOutTapped signOutError =>
      rcases signOutTapped_cases hs with ⟨-, rfl⟩ | ⟨-, rfl⟩ <;> exact .inl h
  | didSignIn login account =>
      obtain ⟨_, rfl, -⟩ := didSignIn_cases hs
      exact .inl h
  | locationReply request coordinate =>
      obtain ⟨rfl, -⟩ := Prod.mk.inj (Except.ok.inj hs)
      unfold App.locationReply at h
      split at h
      · exact .inl h
      · cases coordinate with
        | none => exact .inl h
        | some coordinate => exact (mem_fetches_post h).imp_right .inl
  | fetchAnswer id answer =>
      left
      obtain ⟨call', -, -, ⟨-, rfl, -⟩ | ⟨records, -, hc, -⟩⟩ := fetchAnswer_cases hen.1 hs
      · exact (List.mem_filter.mp h).1
      · rcases complete_cases hc with ⟨_, _, _, -, -, rfl⟩ | ⟨_, -, -, rfl⟩ | ⟨_, -, -, rfl⟩ <;>
          exact (List.mem_filter.mp h).1
  | mainQueueBlock =>
      obtain ⟨rfl, -⟩ := Prod.mk.inj (Except.ok.inj hs)
      obtain ⟨_, _, _, hblock, -⟩ := mainQueueBlock_eq app
      rw [hblock] at h
      exact .inl h
  | commitDelete row =>
      obtain ⟨p, -, rfl, -⟩ := commitDelete_cases hs
      have hpost : call ∈ (app.removeRows P p.id).fetches ∨
          (app.removeRows P p.id).messageBoard.postController = some call.postController :=
        mem_fetches_post h
      exact hpost.imp_right .inl
  | selectRow row =>
      obtain ⟨p, -, rfl, -⟩ := selectRow_cases hs
      exact .inl h
  | postButtonTapped form now uuid =>
      rcases postButtonTapped_cases hs with ⟨rfl, -⟩ | ⟨_, r, hr, -, rfl, -⟩
      · exact .inl h
      · rcases List.mem_append.mp h with h | h
        · exact .inl h
        · obtain rfl := List.mem_singleton.mp h
          exact .inr (.inl hr)
  | postComment detail commentText uuid =>
      obtain ⟨rfl, -⟩ := postComment_cases hs
      exact .inl h

/-- No event rewires the screens. -/
theorem Wired.step (h : app.Wired) {e : Event} {os : List Output}
    (hs : (machine P).Step app e os app') : app'.Wired := by
  have hfetches : ∀ call ∈ app'.fetches, call.postController = app.tabBar.postController := by
    intro call hcall
    rcases mem_fetches_step hs hcall with hcall | hc | hc
    · exact h.fetches call hcall
    · exact (Option.some.inj (h.messageBoard.symm.trans hc)).symm
    · exact (Option.some.inj (h.recentActivity.symm.trans hc)).symm
  cases e with
  | launch signOutError =>
      obtain ⟨rfl, -⟩ := Prod.mk.inj (Except.ok.inj hs.2)
      exact wired_launch _ _
  | tabBarDidAppear =>
      obtain ⟨_, _, rfl, -⟩ := tabBarDidAppear_cases hs.2
      exact ⟨h.messageBoard, h.recentActivity, h.profile, h.details, h.fetches, h.allocated⟩
  | signOutTapped signOutError =>
      rcases signOutTapped_cases hs.2 with ⟨-, rfl⟩ | ⟨-, rfl⟩
      · exact h
      · exact ⟨h.messageBoard, h.recentActivity, h.profile, h.details, h.fetches,
          Nat.lt_succ_of_lt h.allocated⟩
  | didSignIn login account =>
      obtain ⟨_, rfl, -⟩ := didSignIn_cases hs.2
      exact ⟨h.messageBoard, h.recentActivity, h.profile, h.details, h.fetches, h.allocated⟩
  | locationReply request coordinate =>
      obtain ⟨rfl, -⟩ := Prod.mk.inj (Except.ok.inj hs.2)
      constructor <;> simp only [locationReply_messageBoard, locationReply_recentActivity,
        locationReply_profile, locationReply_details, locationReply_tabBar, locationReply_nextRef]
      · exact h.messageBoard
      · exact h.recentActivity
      · exact h.profile
      · exact h.details
      · exact hfetches
      · exact h.allocated
  | _ =>
      obtain ⟨hsame, hdetails⟩ := sameSession_of_quiet hs trivial
      refine ⟨?_, ?_, ?_, fun d hd => ?_, ?_, ?_⟩
      · rw [hsame.messageBoard, hsame.tabBar, h.messageBoard]
      · rw [hsame.recentActivity, hsame.tabBar, h.recentActivity]
      · rw [hsame.profile, hsame.tabBar, h.profile]
      · rw [hsame.tabBar]
        rcases hdetails d hd with hd | hd
        · exact h.details d hd
        · exact hd.trans h.messageBoard
      · rw [hsame.tabBar]
        exact hfetches
      · rw [hsame.tabBar, hsame.nextRef]
        exact h.allocated

theorem wired_of_reachable (h : (machine P).Reachable app) : app.Wired := by
  refine h.invariant ?_ fun _ _ _ _ hw hs => hw.step hs
  rintro _ ⟨flag, account, signOutError, rfl⟩
  exact wired_launch _ _

/-- A user a controller holds was there before, or is made by a reply with a coordinate. -/
theorem user_step {e : Event} {os : List Output} (hs : (machine P).Step app e os app') {r : Ref}
    {user : CurrentUser} (hu : (app'.controllers r).user = some user) :
    (app.controllers r).user = some user ∨ ∃ request coordinate, ∃ completion ∈ app.locationRequests,
      e = .locationReply request (some coordinate) ∧
        user = loggedUser P completion.name coordinate := by
  cases e with
  | launch signOutError =>
      obtain ⟨rfl, -⟩ := Prod.mk.inj (Except.ok.inj hs.2)
      cases hu
  | tabBarDidAppear =>
      obtain ⟨_, _, rfl, -⟩ := tabBarDidAppear_cases hs.2
      exact .inl hu
  | signOutTapped signOutError =>
      rcases signOutTapped_cases hs.2 with ⟨-, rfl⟩ | ⟨-, rfl⟩
      · exact .inl hu
      · by_cases hr : r = app.nextRef
        · subst hr
          simp [setController, PostController.new, setUser] at hu
        · have hset := setUser_user { app with currentUser := none } app.profile.postController none r
          simp only [setController, setUser, Function.update_of_ne hr] at hu hset
          rw [hset] at hu
          split at hu
          · cases hu
          · exact .inl hu
  | didSignIn login account =>
      obtain ⟨_, rfl, -⟩ := didSignIn_cases hs.2
      exact .inl hu
  | locationReply request coordinate =>
      obtain ⟨rfl, -⟩ := Prod.mk.inj (Except.ok.inj hs.2)
      cases coordinate with
      | none =>
          rw [locationReply_none_user] at hu
          exact .inl hu
      | some coordinate =>
          obtain ⟨completion, hc⟩ : ∃ completion, app.locationRequests[request]? = some completion :=
            ⟨_, List.getElem?_eq_getElem hs.1⟩
          rw [locationReply_user hc] at hu
          split at hu
          · exact .inr ⟨request, coordinate, completion, List.mem_of_getElem? hc, rfl,
              (Option.some.inj hu).symm⟩
          · exact .inl hu
  | _ =>
      rw [(sameSession_of_quiet hs trivial).1.user] at hu
      exact .inl hu

/-! ### A login reaches the tabs -/

/-- A pending location completion was pending before, or is passed in this step. -/
theorem mem_locationRequests_step {e : Event} {os : List Output}
    (hs : (machine P).Step app e os app') {completion : LocationCompletion}
    (hm : completion ∈ app'.locationRequests) :
    completion ∈ app.locationRequests ∨
    (∃ account, app.currentUser = some account ∧
      ∃ name, account.displayName = some name ∧ completion = .viewDidAppear name) ∨
    ∃ login account, e = .didSignIn login account ∧
      ∃ name, account.displayName = some name ∧ completion = .didSignIn login name := by
  obtain ⟨hen, hs⟩ := hs
  cases e with
  | launch signOutError =>
      obtain ⟨rfl, -⟩ := Prod.mk.inj (Except.ok.inj hs)
      cases hm
  | tabBarDidAppear =>
      obtain ⟨requests, _, rfl, hrequests, -⟩ := tabBarDidAppear_cases hs
      rcases List.mem_append.mp hm with hm | hm
      · exact .inl hm
      · exact .inr (.inl (hrequests completion hm))
  | didSignIn login account =>
      obtain ⟨requests, rfl, hrequests⟩ := didSignIn_cases hs
      rcases List.mem_append.mp hm with hm | hm
      · exact .inl hm
      · exact .inr (.inr ⟨login, account, rfl, hrequests completion hm⟩)
  | locationReply request coordinate =>
      obtain ⟨rfl, -⟩ := Prod.mk.inj (Except.ok.inj hs)
      rw [locationReply_locationRequests] at hm
      exact .inl (List.mem_of_mem_eraseIdx hm)
  | signOutTapped signOutError =>
      rcases signOutTapped_cases hs with ⟨-, rfl⟩ | ⟨-, rfl⟩ <;> exact .inl hm
  | _ =>
      rw [(sameSession_of_quiet ⟨hen, hs⟩ trivial).1.locationRequests] at hm
      exact .inl hm

theorem currentUser_step {e : Event} {os : List Output} (hs : (machine P).Step app e os app')
    {account : Account} (hc : app'.currentUser = some account) :
    app.currentUser = some account ∨ ∃ login, e = .didSignIn login account := by
  cases e with
  | launch signOutError =>
      obtain ⟨rfl, -⟩ := Prod.mk.inj (Except.ok.inj hs.2)
      simp only [App.launch] at hc
      split at hc
      · exact .inl hc
      · cases hc
  | tabBarDidAppear =>
      obtain ⟨_, _, rfl, -⟩ := tabBarDidAppear_cases hs.2
      exact .inl hc
  | signOutTapped signOutError =>
      rcases signOutTapped_cases hs.2 with ⟨-, rfl⟩ | ⟨-, rfl⟩
      · exact .inl hc
      · cases hc
  | didSignIn login account' =>
      obtain ⟨_, rfl, -⟩ := didSignIn_cases hs.2
      obtain rfl := Option.some.inj hc
      exact .inr ⟨login, rfl⟩
  | locationReply request coordinate =>
      obtain ⟨rfl, -⟩ := Prod.mk.inj (Except.ok.inj hs.2)
      rw [locationReply_currentUser] at hc
      exact .inl hc
  | _ =>
      rw [(sameSession_of_quiet hs trivial).1.currentUser] at hc
      exact .inl hc

/-- The account was signed in at the start, or has signed in since. -/
def HasSignedIn (s₀ : App) (is : List Event) (account : Account) : Prop :=
  s₀.currentUser = some account ∨ ∃ login, .didSignIn login account ∈ is

theorem HasSignedIn.snoc {s₀ : App} {is : List Event} {account : Account}
    (h : HasSignedIn s₀ is account) (e : Event) : HasSignedIn s₀ (is ++ [e]) account :=
  h.imp_right fun ⟨login, hm⟩ => ⟨login, List.mem_append_left _ hm⟩

theorem currentUser_hasSignedIn {s₀ : App} {is : List Event} {os : List Output}
    (h : (machine P).Run s₀ is os app) {account : Account} (hc : app.currentUser = some account) : HasSignedIn s₀ is account := by
  refine h.history (P := fun is _ app => ∀ account, app.currentUser = some account →
    HasSignedIn s₀ is account) ?_ ?_ account hc
  · exact fun _ hc => .inl hc
  · intro is os app e o app' _ ih hs account hc
    rcases currentUser_step hs hc with hc | ⟨login, rfl⟩
    · exact (ih account hc).snoc e
    · exact .inr ⟨login, by simp⟩

/-- **Every name is an account's**: a user a controller holds has the name of an account that has
signed in on the device. -/
theorem user_hasSignedIn {s₀ : App} {is : List Event} {os : List Output} (h₀ : (machine P).start s₀)
    (h : (machine P).Run s₀ is os app) {r : Ref} {user : CurrentUser}
    (hu : (app.controllers r).user = some user) :
    ∃ account, HasSignedIn s₀ is account ∧ account.displayName = some user.name := by
  have hall : (∀ completion ∈ app.locationRequests, ∃ account, HasSignedIn s₀ is account ∧
        account.displayName = some completion.name) ∧
      ∀ r user, (app.controllers r).user = some user → ∃ account, HasSignedIn s₀ is account ∧
        account.displayName = some user.name := by
    refine h.history (P := fun is _ app =>
      (∀ completion ∈ app.locationRequests, ∃ account, HasSignedIn s₀ is account ∧
        account.displayName = some completion.name) ∧
      ∀ r user, (app.controllers r).user = some user → ∃ account, HasSignedIn s₀ is account ∧
        account.displayName = some user.name) ?_ ?_
    · obtain ⟨flag, account, signOutError, rfl⟩ := h₀
      refine ⟨?_, ?_⟩
      · intro _ hm
        cases hm
      · intro _ _ hu
        cases hu
    · rintro is os app e o app' hr ⟨hreq, huser⟩ hs
      refine ⟨fun completion hm => ?_, fun r user hu => ?_⟩
      · rcases mem_locationRequests_step hs hm with
          hm | ⟨account, hc, name, hn, rfl⟩ | ⟨login, account, rfl, name, hn, rfl⟩
        · obtain ⟨account, hacc, hn⟩ := hreq completion hm
          exact ⟨account, hacc.snoc e, hn⟩
        · exact ⟨account, (currentUser_hasSignedIn hr hc).snoc e, hn⟩
        · exact ⟨account, .inr ⟨login, by simp⟩, hn⟩
      · rcases user_step hs hu with hu | ⟨_, _, completion, hm, -, rfl⟩
        · obtain ⟨account, hacc, hn⟩ := huser r user hu
          exact ⟨account, hacc.snoc e, hn⟩
        · obtain ⟨account, hacc, hn⟩ := hreq completion hm
          exact ⟨account, hacc.snoc e, hn⟩
  exact hall.2 r user hu

/-- A pending login completion comes from a sign-in on its screen, by an account of its name. -/
theorem pending_login {s₀ : App} {is : List Event} {os : List Output} (h₀ : (machine P).start s₀)
    (h : (machine P).Run s₀ is os app) {login : ℕ} {name : String}
    (hreq : .didSignIn login name ∈ app.locationRequests) :
    ∃ account, .didSignIn login account ∈ is ∧ account.displayName = some name := by
  refine h.history (P := fun is _ app => ∀ login name,
    LocationCompletion.didSignIn login name ∈ app.locationRequests →
      ∃ account, .didSignIn login account ∈ is ∧ account.displayName = some name) ?_ ?_ _ _ hreq
  · obtain ⟨flag, account, signOutError, rfl⟩ := h₀
    intro _ _ hm
    cases hm
  · intro is os app e o app' _ ih hs login name hm
    rcases mem_locationRequests_step hs hm with hm | ⟨_, -, _, -, he⟩ | ⟨_, account, rfl, _, hn, he⟩
    · obtain ⟨account, hmem, hname⟩ := ih login name hm
      exact ⟨account, List.mem_append_left _ hmem, hname⟩
    · cases he
    · cases he
      exact ⟨account, by simp, hn⟩

/-! Two accounts on one device. -/

def accountA : Account := ⟨"uid-a", some "A"⟩

def accountB : Account := ⟨"uid-b", some "B"⟩

def home : Coordinate := ⟨75 / 2, -489 / 4⟩

def loginA : List Event := [.tabBarDidAppear, .didSignIn 0 accountA]

/-! ### The shared user is the account signed in -/

/-- The user of the tabs, if any, has the name of the account signed in. -/
def CurrentIdentity (app : App) : Prop :=
  ∀ user, app.shared.user = some user →
    ∃ account, app.currentUser = some account ∧ account.displayName = some user.name

/-- A reply reaches the tabs only while the account whose name it captured is signed in, and
nobody signs in over the user of another account. -/
def Timely (app : App) : Event → Prop
  | .locationReply request (some _) => ∀ completion,
      app.locationRequests[request]? = some completion →
      app.recipient completion = some app.tabBar.postController →
      ∃ account, app.currentUser = some account ∧ account.displayName = some completion.name
  | .didSignIn _ account => ∀ user, app.shared.user = some user →
      account.displayName = some user.name
  | _ => True

instance (app : App) (e : Event) : Decidable (app.Timely e) :=
  match e with
  | .locationReply request (some _) =>
      match hc : app.locationRequests[request]?, ha : app.currentUser with
      | some completion, some account =>
          decidable_of_iff (app.recipient completion = some app.tabBar.postController →
            account.displayName = some completion.name) (by simp [Timely, hc, ha])
      | some completion, none =>
          decidable_of_iff (¬ app.recipient completion = some app.tabBar.postController)
            (by simp [Timely, hc, ha])
      | none, _ => isTrue (by simp [Timely, hc])
  | .didSignIn _ account =>
      match hu : app.shared.user with
      | some user => decidable_of_iff (account.displayName = some user.name) (by simp [Timely, hu])
      | none => isTrue (by simp [Timely, hu])
  | .locationReply _ none | .launch _ | .tabBarDidAppear | .messageBoardDidLoad
  | .messageBoardDidAppear | .recentActivityWillAppear | .signOutTapped _ | .fetchAnswer _ _
  | .mainQueueBlock | .commitDelete _ | .selectRow _ | .postButtonTapped _ _ _
  | .postComment _ _ _ => isTrue trivial

theorem CurrentIdentity.congr (h : app.CurrentIdentity) (hc : app'.currentUser = app.currentUser)
    (hu : app'.shared.user = app.shared.user) : app'.CurrentIdentity := by
  intro user huser
  rw [hc]
  exact h user (hu ▸ huser)

theorem currentIdentity_of_none (h : app.shared.user = none) : app.CurrentIdentity := by
  intro user huser
  rw [h] at huser
  cases huser

/-- **Timely events are exactly those that keep the identity current.** -/
theorem currentIdentity_step_iff (hw : app.Wired) (h : app.CurrentIdentity) {e : Event}
    {os : List Output} (hs : (machine P).Step app e os app') :
    app'.CurrentIdentity ↔ app.Timely e := by
  obtain ⟨hen, hs⟩ := hs
  cases e with
  | launch signOutError =>
      obtain ⟨rfl, -⟩ := Prod.mk.inj (Except.ok.inj hs)
      exact iff_of_true (currentIdentity_of_none rfl) trivial
  | tabBarDidAppear =>
      obtain ⟨_, _, rfl, -⟩ := tabBarDidAppear_cases hs
      exact iff_of_true (h.congr rfl rfl) trivial
  | signOutTapped signOutError =>
      refine iff_of_true ?_ trivial
      rcases signOutTapped_cases hs with ⟨-, rfl⟩ | ⟨-, rfl⟩
      · exact h
      · refine currentIdentity_of_none ?_
        have hne : app.tabBar.postController ≠ app.nextRef := ne_of_lt hw.allocated
        simp [shared, setController, setUser, hw.profile, hne]
  | didSignIn login account =>
      obtain ⟨_, rfl, -⟩ := didSignIn_cases hs
      simp [CurrentIdentity, Timely, shared]
  | locationReply request coordinate =>
      obtain ⟨rfl, -⟩ := Prod.mk.inj (Except.ok.inj hs)
      cases coordinate with
      | none =>
          refine iff_of_true (h.congr (by simp) ?_) trivial
          rw [shared, locationReply_tabBar]
          exact locationReply_none_user ..
      | some coordinate =>
          obtain ⟨completion, hc⟩ : ∃ completion, app.locationRequests[request]? = some completion :=
            ⟨_, List.getElem?_eq_getElem hen⟩
          have hu := locationReply_user (P := P) hc coordinate app.tabBar.postController
          unfold CurrentIdentity Timely
          rw [shared, locationReply_tabBar, hu, locationReply_currentUser]
          by_cases hr : app.recipient completion = some app.tabBar.postController
          · simp [hr, hc, loggedUser]
          · simp only [hr, if_false, hc, Option.some.injEq, forall_eq', false_imp_iff, iff_true]
            exact h
  | _ =>
      obtain ⟨hsame, -⟩ := sameSession_of_quiet ⟨hen, hs⟩ trivial
      refine iff_of_true (h.congr hsame.currentUser ?_) trivial
      rw [shared, hsame.tabBar]
      exact hsame.user _

/-- The update creates a post or a comment by this author. -/
def Authors (author : String) : Update → Prop
  | .createPost _ new => new.author = author
  | .createComment _ a _ _ => a = author
  | _ => False

/-- What is sent carries the name of the shared user. -/
theorem authors_shared (hw : app.Wired) {e : Event} {us : List Update} (hs : Sends P app e us)
    {u : Update} (hu : u ∈ us) {author : String} (ha : Authors author u) :
    ∃ user, app.shared.user = some user ∧ user.name = author := by
  cases hs with
  | nothing => cases hu
  | post hr hnew =>
      obtain rfl := List.mem_singleton.mp hu
      obtain ⟨controller, user, hc, huser, hname, -⟩ :=
        CreateMessageBoardViewController.postMessageBoard_eq_some hnew
      obtain rfl := Option.some.inj hc
      obtain rfl := Option.some.inj (hw.messageBoard.symm.trans hr)
      exact ⟨user, huser, hname.symm.trans ha⟩
  | comment hself hnew =>
      obtain rfl := List.mem_singleton.mp hu
      obtain ⟨_, r, user, -, -, hr, huser, hname, -⟩ := newComment_eq_some hnew
      obtain rfl := Option.some.inj ((hw.details _ hself).symm.trans hr)
      exact ⟨user, huser, hname.symm.trans ha⟩
  | delete hp =>
      simp only [PostController.deletePostandItsComments, List.mem_cons, List.not_mem_nil,
        or_false] at hu
      rcases hu with rfl | rfl <;> cases ha

/-- **When the shared identity stays current.**  Along a run the user of the tabs always is the
account signed in if and only if every reply and every sign-in is timely; and then no post or
comment is ever sent under another name than that of the account signed in. -/
theorem identity_current_iff {s₀ s : App} {is : List Event} {os : List Output}
    (h₀ : (machine P).start s₀) (h : (machine P).Run s₀ is os s) :
    ((∀ pre ps t, pre <+: is → (machine P).Run s₀ pre ps t → t.CurrentIdentity) ↔
      ((machine P).restrict Timely).Run s₀ is os s) ∧
    (((machine P).restrict Timely).Run s₀ is os s →
      ∀ e o s', (machine P).Step s e o s' → ∀ u ∈ updates o, ∀ author, Authors author u →
        ∃ account, s.currentUser = some account ∧ account.displayName = some author) := by
  have hw : ∀ {js ps t}, (machine P).Run s₀ js ps t → t.Wired := fun hr =>
    wired_of_reachable ⟨s₀, _, _, h₀, hr⟩
  have hi₀ : s₀.CurrentIdentity := by
    obtain ⟨flag, account, signOutError, rfl⟩ := h₀
    exact currentIdentity_of_none rfl
  have hiff : (∀ pre ps t, pre <+: is → (machine P).Run s₀ pre ps t → t.CurrentIdentity) ↔
      ((machine P).restrict Timely).Run s₀ is os s := by
    rw [← Machine.Run.always_iff (P := fun t => t.Wired ∧ t.CurrentIdentity) ?_ h ⟨hw .refl, hi₀⟩]
    · constructor
      · exact fun hall pre ps t hp hr => ⟨hw hr, hall pre ps t hp hr⟩
      · exact fun hall pre ps t hp hr => (hall pre ps t hp hr).2
    · intro t e o t' ht hs
      rw [← currentIdentity_step_iff ht.1 ht.2 hs]
      exact and_iff_right (ht.1.step hs)
  refine ⟨hiff, fun hres e o s' hs u hu author ha => ?_⟩
  have hi := hiff.mpr hres is os s (List.prefix_refl _) h
  obtain ⟨user, huser, rfl⟩ := authors_shared (hw h) (sends hs) hu ha
  exact hi user huser

/-- A reply that comes after the sign-out brings the old user back. -/
theorem stale_identity : ∃ s, (machine .decimal).Reachable s ∧ ¬ s.CurrentIdentity := by
  obtain ⟨os, s, hr, hu, hc⟩ := Machine.Run.exists_of_exec (M := machine .decimal)
    (s := (off true (some accountA)).launch false)
    (l := [.tabBarDidAppear, .signOutTapped false, .locationReply 0 (some home)])
    (Q := fun s _ => s.shared.user = some (loggedUser .decimal "A" home) ∧ s.currentUser = none)
    (by decide +kernel) (by decide +kernel)
  refine ⟨s, ⟨_, _, os, ⟨true, some accountA, false, rfl⟩, hr⟩, fun hi => ?_⟩
  obtain ⟨account, ha, -⟩ := hi _ hu
  rw [hc] at ha
  cases ha

theorem identity_current_sample : ∃ os s,
    (machine .decimal).Run firstLaunch (loginA ++ [.locationReply 0 (some home)]) os s ∧
    s.shared.user = some (loggedUser .decimal "A" home) ∧ s.CurrentIdentity := by
  obtain ⟨os, s, hr, hu⟩ := Machine.Run.exists_of_exec
    (M := (machine .decimal).restrict Timely) (s := firstLaunch)
    (l := loginA ++ [.locationReply 0 (some home)])
    (Q := fun s _ => s.shared.user = some (loggedUser .decimal "A" home))
    (by decide +kernel) (by decide +kernel)
  have hiff := (identity_current_iff (start_firstLaunch _) hr.of_restrict).1
  exact ⟨os, s, hr.of_restrict, hu, hiff.mpr hr _ os s (List.prefix_refl _) hr.of_restrict⟩

end App
end ZipR
