import ZipR.App

/-! # What the handlers do

One lemma for each handler, so that no later proof unfolds one.

* `post_frame`: a posting changes the posts of controllers and the pending fetches only.
* `tabBarDidAppear_cases`, `recentActivityWillAppear_cases`, `didSignIn_cases`,
  `signOutTapped_cases`, `mainQueueBlock_eq`: what the screens ask for, and what they present.
* `fetchAnswer_cases`: an answered fetch is dropped, or fills its controller and completes once;
  `complete_cases` says what each completion does.
* `commitDelete_cases`, `selectRow_cases`, `postButtonTapped_cases`, `postComment_cases`: what a
  touch changes and what it sends. -/

namespace ZipR

open Reactive JsonTree

namespace App

/-! ### What the handlers leave alone -/

section frames
variable (app : App)

@[simp] theorem setController_self (r : Ref) (controller : PostController) :
    (app.setController r controller).controllers r = controller := by simp [setController]

theorem setController_ne {r r' : Ref} (controller : PostController) (h : r' ≠ r) :
    (app.setController r controller).controllers r' = app.controllers r' := by
  simp [setController, h]

@[simp] theorem setController_same (r : Ref) : app.setController r (app.controllers r) = app := by
  simp [setController]

theorem setUser_user (controller : Option Ref) (user : Option CurrentUser) (r : Ref) :
    ((app.setUser controller user).controllers r).user =
      if controller = some r then user else (app.controllers r).user := by
  by_cases h : controller = some r <;> simp [setUser, h]

@[simp] theorem fetchPosts_user (r r' : Ref) (completion : FetchCompletion) :
    ((app.fetchPosts r completion).controllers r').user = (app.controllers r').user := by
  by_cases h : r' = r
  · subst h
    simp [fetchPosts, setController, PostController.fetchPosts]
  · simp [fetchPosts, setController, h]

variable {app}

/-- A posting is a series of calls of `updateViews`. -/
theorem post_induction {Q : App → Prop} (name : NotificationName) (h : Q app)
    (hstep : ∀ app r, Q app → app.messageBoard.postController = some r →
      Q (app.fetchPosts r .updateViews)) : Q (app.post name) := by
  have hviews : ∀ app, Q app → Q app.updateViews := by
    intro app happ
    unfold updateViews
    split
    · exact happ
    · exact hstep _ _ happ ‹_›
  have hfold : ∀ (names : List NotificationName) (app : App), Q app →
      Q (names.foldl (fun app _ => app.updateViews) app) := by
    intro names
    induction names with
    | nil => exact fun _ happ => happ
    | cons _ names ih => exact fun app happ => ih _ (hviews app happ)
  exact hfold _ app h

/-- **A posting issues one fetch for each registration.** -/
theorem post_fetches {r : Ref} (hr : app.messageBoard.postController = some r)
    (name : NotificationName) : (app.post name).fetches = app.fetches ++
      (List.range (app.observers.count name)).map fun k =>
        ⟨app.nextFetch + k, r, .updateViews⟩ := by
  have hcount : app.observers.count name = (app.observers.filter (· = name)).length := by
    rw [List.count_eq_length_filter]
    rfl
  rw [hcount, post]
  clear hcount
  generalize app.observers.filter (· = name) = names
  induction names generalizing app with
  | nil => simp
  | cons _ names ih =>
      have hviews : app.updateViews = app.fetchPosts r .updateViews := by
        rw [updateViews, hr]
      have hrest := @ih (app.fetchPosts r .updateViews) hr
      rw [List.foldl_cons, hviews, hrest, List.length_cons, List.range_succ_eq_map]
      simp [fetchPosts, Function.comp_def, Nat.add_comm, Nat.add_left_comm]

/-- What no fetch changes, no posting changes. -/
theorem post_frame {α : Type} (f : App → α) (hf : ∀ app r, f (app.fetchPosts r .updateViews) = f app)
    (app : App) (name : NotificationName) : f (app.post name) = f app :=
  post_induction (Q := fun app' => f app' = f app) name rfl fun app' r h _ => (hf app' r).trans h

variable (app) (name : NotificationName)

@[simp] theorem post_currentUser : (app.post name).currentUser = app.currentUser :=
  post_frame (·.currentUser) (fun _ _ => rfl) app name
@[simp] theorem post_nextRef : (app.post name).nextRef = app.nextRef :=
  post_frame (·.nextRef) (fun _ _ => rfl) app name
@[simp] theorem post_tabBar : (app.post name).tabBar = app.tabBar :=
  post_frame (·.tabBar) (fun _ _ => rfl) app name
@[simp] theorem post_messageBoard : (app.post name).messageBoard = app.messageBoard :=
  post_frame (·.messageBoard) (fun _ _ => rfl) app name
@[simp] theorem post_recentActivity : (app.post name).recentActivity = app.recentActivity :=
  post_frame (·.recentActivity) (fun _ _ => rfl) app name
@[simp] theorem post_profile : (app.post name).profile = app.profile :=
  post_frame (·.profile) (fun _ _ => rfl) app name
@[simp] theorem post_details : (app.post name).details = app.details :=
  post_frame (·.details) (fun _ _ => rfl) app name
@[simp] theorem post_observers : (app.post name).observers = app.observers :=
  post_frame (·.observers) (fun _ _ => rfl) app name
@[simp] theorem post_logins : (app.post name).logins = app.logins :=
  post_frame (·.logins) (fun _ _ => rfl) app name
@[simp] theorem post_locationRequests : (app.post name).locationRequests = app.locationRequests :=
  post_frame (·.locationRequests) (fun _ _ => rfl) app name
@[simp] theorem post_user (r : Ref) :
    ((app.post name).controllers r).user = (app.controllers r).user :=
  post_frame (fun app => (app.controllers r).user) (fun app r' => app.fetchPosts_user r' r _) app name

/-- What neither a fetch nor a new user changes, no location reply changes. -/
theorem locationReply_frame {α : Type} (f : App → α)
    (hf : ∀ app r, f (app.fetchPosts r .updateViews) = f app)
    (hu : ∀ app controller user, f (setUser app controller user) = f app)
    (hl : ∀ app requests, f { app with locationRequests := requests } = f app) (P : Platform)
    (app : App) (request : ℕ) (coordinate : Option Coordinate) :
    f (app.locationReply P request coordinate) = f app := by
  unfold locationReply
  split
  · rfl
  · cases coordinate with
    | none => exact hl _ _
    | some coordinate => exact ((post_frame f hf _ _).trans (hu _ _ _)).trans (hl _ _)

section replies
variable (P : Platform) (app : App) (request : ℕ) (coordinate : Option Coordinate)

@[simp] theorem locationReply_currentUser :
    (app.locationReply P request coordinate).currentUser = app.currentUser :=
  locationReply_frame (·.currentUser) (fun _ _ => rfl) (fun _ _ _ => rfl) (fun _ _ => rfl) ..
@[simp] theorem locationReply_nextRef :
    (app.locationReply P request coordinate).nextRef = app.nextRef :=
  locationReply_frame (·.nextRef) (fun _ _ => rfl) (fun _ _ _ => rfl) (fun _ _ => rfl) ..
@[simp] theorem locationReply_tabBar :
    (app.locationReply P request coordinate).tabBar = app.tabBar :=
  locationReply_frame (·.tabBar) (fun _ _ => rfl) (fun _ _ _ => rfl) (fun _ _ => rfl) ..
@[simp] theorem locationReply_messageBoard :
    (app.locationReply P request coordinate).messageBoard = app.messageBoard :=
  locationReply_frame (·.messageBoard) (fun _ _ => rfl) (fun _ _ _ => rfl) (fun _ _ => rfl) ..
@[simp] theorem locationReply_recentActivity :
    (app.locationReply P request coordinate).recentActivity = app.recentActivity :=
  locationReply_frame (·.recentActivity) (fun _ _ => rfl) (fun _ _ _ => rfl) (fun _ _ => rfl) ..
@[simp] theorem locationReply_profile :
    (app.locationReply P request coordinate).profile = app.profile :=
  locationReply_frame (·.profile) (fun _ _ => rfl) (fun _ _ _ => rfl) (fun _ _ => rfl) ..
@[simp] theorem locationReply_details :
    (app.locationReply P request coordinate).details = app.details :=
  locationReply_frame (·.details) (fun _ _ => rfl) (fun _ _ _ => rfl) (fun _ _ => rfl) ..

@[simp] theorem locationReply_logins :
    (app.locationReply P request coordinate).logins = app.logins :=
  locationReply_frame (·.logins) (fun _ _ => rfl) (fun _ _ _ => rfl) (fun _ _ => rfl) ..
@[simp] theorem locationReply_observers :
    (app.locationReply P request coordinate).observers = app.observers :=
  locationReply_frame (·.observers) (fun _ _ => rfl) (fun _ _ _ => rfl) (fun _ _ => rfl) ..

end replies

theorem locationReply_locationRequests (P : Platform) (app : App) (request : ℕ)
    (coordinate : Option Coordinate) : (app.locationReply P request coordinate).locationRequests =
      app.locationRequests.eraseIdx request := by
  unfold locationReply
  cases hc : app.locationRequests[request]? with
  | none => exact (List.eraseIdx_of_length_le (List.getElem?_eq_none_iff.mp hc)).symm
  | some completion =>
      cases coordinate with
      | none => rfl
      | some coordinate => exact post_locationRequests ..

/-- A reply with a coordinate makes the recipient's user, and no other. -/
theorem locationReply_user {P : Platform} {app : App} {request : ℕ} {completion : LocationCompletion}
    (h : app.locationRequests[request]? = some completion) (coordinate : Coordinate) (r : Ref) :
    ((app.locationReply P request (some coordinate)).controllers r).user =
      if app.recipient completion = some r then some (loggedUser P completion.name coordinate)
      else (app.controllers r).user := by
  have hr : recipient { app with locationRequests := app.locationRequests.eraseIdx request }
      completion = app.recipient completion := by cases completion <;> rfl
  simp only [locationReply, h, locationCompletion, post_user, setUser_user, hr]

theorem locationReply_none_user {P : Platform} {app : App} (request : ℕ) (r : Ref) :
    ((app.locationReply P request none).controllers r).user = (app.controllers r).user := by
  unfold locationReply
  split <;> rfl

end frames

/-! ### What a screen does -/

section screens
variable {P : Platform} {app app' : App} {os : List Output}

/-- The tab bar controller asks for a location, presents a login screen with its own controller, or
does nothing. -/
theorem tabBarDidAppear_cases (h : (machine P).step app .tabBarDidAppear = .ok (app', os)) :
    ∃ requests logins, app' = { app with
        locationRequests := app.locationRequests ++ requests, logins := app.logins ++ logins } ∧
      (∀ completion ∈ requests, ∃ account, app.currentUser = some account ∧
        ∃ name, account.displayName = some name ∧ completion = .viewDidAppear name) ∧
      (logins = [] ∨ logins = [⟨some app.tabBar.postController⟩]) := by
  obtain ⟨rfl, -⟩ := Prod.mk.inj (Except.ok.inj h)
  unfold tabBarDidAppear
  split
  · rename_i account hc
    split
    · exact ⟨[], [], by simp, by simp, .inl rfl⟩
    · rename_i name hn
      exact ⟨[.viewDidAppear name], [], by simp, by simp [hc, hn], .inl rfl⟩
  · split
    · exact ⟨[], [], by simp, by simp, .inl rfl⟩
    · exact ⟨[], [⟨some app.tabBar.postController⟩], by simp, by simp, .inr rfl⟩

theorem recentActivityWillAppear_cases
    (h : (machine P).step app .recentActivityWillAppear = .ok (app', os)) :
    app' = app ∨ ∃ r, app.recentActivity.postController = some r ∧
      app' = app.fetchPosts r .viewWillAppear := by
  obtain ⟨rfl, -⟩ := Prod.mk.inj (Except.ok.inj h)
  unfold recentActivityWillAppear
  cases hr : app.recentActivity.postController with
  | none => exact .inl rfl
  | some r => exact .inr ⟨r, rfl, rfl⟩

/-- A sign-in asks for a location if the account has a name. -/
theorem didSignIn_cases {login : ℕ} {account : Account}
    (h : (machine P).step app (.didSignIn login account) = .ok (app', os)) :
    ∃ requests, app' = { app with
        currentUser := some account, locationRequests := app.locationRequests ++ requests } ∧
      ∀ completion ∈ requests, ∃ name, account.displayName = some name ∧
        completion = .didSignIn login name := by
  obtain ⟨rfl, -⟩ := Prod.mk.inj (Except.ok.inj h)
  unfold didSignIn
  cases hn : account.displayName with
  | none => exact ⟨[], by simp, by simp⟩
  | some name => exact ⟨[.didSignIn login name], by simp, by simp⟩

/-- A sign-out that does not fail clears the profile's controller and presents a login screen with a
new one. -/
theorem signOutTapped_cases {signOutError : Bool}
    (h : (machine P).step app (.signOutTapped signOutError) = .ok (app', os)) :
    signOutError = true ∧ app' = app ∨ signOutError = false ∧ app' =
      { (({ app with currentUser := none } : App).setUser app.profile.postController
          none).setController app.nextRef .new with
        nextRef := app.nextRef + 1
        logins := app.logins ++ [⟨some app.nextRef⟩] } := by
  obtain ⟨rfl, -⟩ := Prod.mk.inj (Except.ok.inj h)
  cases signOutError with
  | true => exact .inl ⟨rfl, rfl⟩
  | false => exact .inr ⟨rfl, rfl⟩

/-- A block of the main queue shows a table's array in its rows. -/
theorem mainQueueBlock_eq (app : App) : ∃ boardRows activityRows blocks,
    app.mainQueueBlock = { app with
      messageBoard := { app.messageBoard with rows := boardRows }
      recentActivity := { app.recentActivity with rows := activityRows }
      mainQueue := blocks } ∧
    (boardRows = app.messageBoard.rows ∨ boardRows = app.messageBoard.localPosts) ∧
    (activityRows = app.recentActivity.rows ∨ activityRows = app.recentActivity.usersPosts) := by
  unfold mainQueueBlock
  split
  · exact ⟨app.messageBoard.rows, app.recentActivity.rows, app.mainQueue, rfl, .inl rfl, .inl rfl⟩
  · exact ⟨_, _, _, rfl, .inr rfl, .inl rfl⟩
  · exact ⟨_, _, _, rfl, .inl rfl, .inr rfl⟩

end screens

/-! ### What an answer does -/

/-- The fetches but one. -/
def removeFetch (app : App) (id : ℕ) : App :=
  { app with fetches := app.fetches.filter fun c => c.id ≠ id }

def setPosts (app : App) (r : Ref) (posts : List Post) : App :=
  app.setController r { app.controllers r with posts := posts }

@[simp] theorem setPosts_user (app : App) (r r' : Ref) (posts : List Post) :
    ((app.setPosts r posts).controllers r').user = (app.controllers r').user := by
  by_cases h : r' = r
  · subst h
    simp [setPosts]
  · simp [setPosts, setController_ne, h]

@[simp] theorem setPosts_posts (app : App) (r : Ref) (posts : List Post) :
    ((app.setPosts r posts).controllers r).posts = posts := by
  rw [setPosts, setController_self]

theorem setPosts_posts_ne {r r' : Ref} (h : r' ≠ r) (app : App) (posts : List Post) :
    ((app.setPosts r posts).controllers r').posts = (app.controllers r').posts := by
  rw [setPosts, setController_ne _ _ h]

@[simp] theorem removeFetch_controllers (app : App) (id : ℕ) :
    (app.removeFetch id).controllers = app.controllers := rfl

section answers
variable {P : Platform} {app app' : App} {call : FetchCall}

theorem answered_dictionary (records : List (String × Json)) :
    app.answered call (.value (.object records)) =
      ((app.setPosts call.postController (PostController.decodePosts records)).removeFetch call.id,
        [none]) := rfl

theorem answered_dropped {answer : Answer} (h : ∀ records, answer ≠ .value (.object records)) :
    app.answered call answer = (app.removeFetch call.id, []) := by
  have hc : (app.controllers call.postController).fetchPostsAnswered answer =
      (app.controllers call.postController, []) := by
    cases answer with
    | cancelled => rfl
    | value snapshot =>
        cases snapshot with
        | object records => exact absurd rfl (h records)
        | _ => rfl
  simp only [answered, hc, setController_same]
  rfl

/-- What each completion does. -/
theorem complete_cases (h : app.complete P call = .ok app') :
    (∃ usersLat usersLong localPosts, call.completion = .updateViews ∧
      (app.controllers call.postController).parsePosts P usersLat usersLong = .ok localPosts ∧
      app' = { app with
        messageBoard := { app.messageBoard with
          usersLat := usersLat, usersLong := usersLong, localPosts := localPosts }
        mainQueue := app.mainQueue ++ [.reloadMessageBoard] }) ∨
    (∃ localPosts, call.completion = .postButtonWasTapped ∧
      app.parsePostsAgain P = .ok localPosts ∧
      app' = { app with
        messageBoard := { app.messageBoard with localPosts := localPosts }
        mainQueue := app.mainQueue ++ [.reloadMessageBoard] }) ∨
    ∃ usersPosts, call.completion = .viewWillAppear ∧
      filterPostsByUserandDate P (app.controllers call.postController).posts
        (((app.controllers call.postController).user.map CurrentUser.name).getD "") =
          .ok usersPosts ∧
      app' = { app with
        recentActivity := { app.recentActivity with usersPosts := usersPosts }
        mainQueue := app.mainQueue ++ [.reloadRecentActivity] } := by
  unfold complete at h
  cases hc : call.completion with
  | updateViews =>
      left
      simp only [hc] at h
      cases hp : (app.controllers call.postController).parsePosts P
          (((app.controllers call.postController).user.bind CurrentUser.latitude).getD "")
          (((app.controllers call.postController).user.bind CurrentUser.longitude).getD "") with
      | error e => rw [hp] at h; cases h
      | ok localPosts =>
          rw [hp] at h
          exact ⟨_, _, localPosts, rfl, hp, (Except.ok.inj h).symm⟩
  | postButtonWasTapped =>
      right; left
      simp only [hc] at h
      cases hp : app.parsePostsAgain P with
      | error e => rw [hp] at h; cases h
      | ok localPosts =>
          rw [hp] at h
          exact ⟨localPosts, rfl, rfl, (Except.ok.inj h).symm⟩
  | viewWillAppear =>
      right; right
      simp only [hc] at h
      cases hp : filterPostsByUserandDate P (app.controllers call.postController).posts
          (((app.controllers call.postController).user.map CurrentUser.name).getD "") with
      | error e => rw [hp] at h; cases h
      | ok usersPosts =>
          rw [hp] at h
          exact ⟨usersPosts, rfl, rfl, (Except.ok.inj h).symm⟩

/-- An answered fetch is dropped, or its callback fills the controller and completes once. -/
theorem fetchAnswer_cases {id : ℕ} {answer : Answer} {os : List Output}
    (hid : ∃ call ∈ app.fetches, call.id = id)
    (h : app.fetchAnswer P id answer = .ok (app', os)) :
    ∃ call ∈ app.fetches, call.id = id ∧
      (((∀ records, answer ≠ .value (.object records)) ∧ app' = app.removeFetch id ∧ os = []) ∨
        ∃ records, answer = .value (.object records) ∧
          ((app.setPosts call.postController (PostController.decodePosts records)).removeFetch
            id).complete P call = .ok app' ∧ os = [.completed call]) := by
  unfold fetchAnswer at h
  cases hf : app.fetches.find? fun c => c.id = id with
  | none =>
      obtain ⟨call, hcall, rfl⟩ := hid
      have hne := List.find?_eq_none.mp hf call hcall
      simp at hne
  | some call =>
      have hcid : call.id = id := by simpa using List.find?_some hf
      refine ⟨call, List.mem_of_find?_eq_some hf, hcid, ?_⟩
      subst hcid
      by_cases hd : ∃ records, answer = .value (.object records)
      · obtain ⟨records, rfl⟩ := hd
        right
        simp only [hf, answered_dictionary, completeAll] at h
        cases hc : ((app.setPosts call.postController
            (PostController.decodePosts records)).removeFetch call.id).complete P call with
        | error e => rw [hc] at h; cases h
        | ok t =>
            rw [hc] at h
            obtain ⟨rfl, rfl⟩ := Prod.mk.inj (Except.ok.inj h)
            exact ⟨records, rfl, hc, rfl⟩
      · have hd' : ∀ records, answer ≠ .value (.object records) := fun records he => hd ⟨records, he⟩
        left
        simp only [hf, answered_dropped hd', completeAll, Except.ok.injEq, Prod.mk.injEq] at h
        exact ⟨hd', h.1.symm, h.2.symm⟩

end answers

/-! ### What a touch does -/

section touches
variable {P : Platform} {app app' : App} {os : List Output}

theorem send_eq_ok {u : Update} {o : Output} (h : send u = .ok o) : o = .write u := by
  unfold send at h
  cases hw : u.write with
  | error e => rw [hw] at h; cases h
  | ok w =>
      rw [hw] at h
      exact (Except.ok.inj h).symm

theorem sendDeletion_eq_ok {idString : Option String} (h : app.sendDeletion idString = .ok os) :
    os = if app.recentActivity.postController = none then []
      else (PostController.deletePostandItsComments (idString.getD "")).map .write := by
  unfold sendDeletion at h
  cases hc : app.recentActivity.postController with
  | none =>
      rw [hc] at h
      exact (Except.ok.inj h).symm
  | some r =>
      simp only [hc, PostController.deletePostandItsComments, List.mapM_cons, List.mapM_nil] at h
      cases h₁ : send (.removePost (idString.getD "")) with
      | error e => rw [h₁] at h; cases h
      | ok o₁ =>
          cases h₂ : send (.removeComments (idString.getD "")) with
          | error e => rw [h₁, h₂] at h; cases h
          | ok o₂ =>
              rw [h₁, h₂] at h
              obtain rfl : [o₁, o₂] = os := Except.ok.inj h
              rw [send_eq_ok h₁, send_eq_ok h₂]
              rfl

/-- A deletion traps on a bad path only. -/
theorem send_removal_error {u : Update} {postId : String} {e : Trap}
    (hu : u ∈ PostController.deletePostandItsComments postId) (h : send u = .error e) :
    e = .invalidPath := by
  have hwrite : u.write = .error e := by
    unfold send at h
    cases hw : u.write with
    | error e' => rw [hw] at h; exact congrArg _ (Except.error.inj h)
    | ok w => rw [hw] at h; cases h
  simp only [PostController.deletePostandItsComments, List.mem_cons, List.not_mem_nil,
    or_false] at hu
  rcases hu with rfl | rfl
  · rw [Update.write, PostController.removePost_eq] at hwrite
    exact map_child_eq_error hwrite
  · rw [Update.write, PostController.removeComments_eq] at hwrite
    exact map_child_eq_error hwrite

theorem sendDeletion_eq_error {idString : Option String} {e : Trap}
    (h : app.sendDeletion idString = .error e) : e = .invalidPath := by
  unfold sendDeletion at h
  split at h
  · cases h
  · simp only [PostController.deletePostandItsComments, List.mapM_cons, List.mapM_nil] at h
    have hall : ∀ {u : Update} {e : Trap},
        u ∈ PostController.deletePostandItsComments (idString.getD "") →
          send u = .error e → e = .invalidPath := fun hu he => send_removal_error hu he
    simp only [PostController.deletePostandItsComments, List.mem_cons, List.not_mem_nil,
      or_false] at hall
    cases h₁ : send (.removePost (idString.getD "")) with
    | error e₁ =>
        rw [h₁] at h
        obtain rfl : e₁ = e := Except.error.inj h
        exact hall (.inl rfl) h₁
    | ok o₁ =>
        cases h₂ : send (.removeComments (idString.getD "")) with
        | error e₂ =>
            rw [h₁, h₂] at h
            obtain rfl : e₂ = e := Except.error.inj h
            exact hall (.inr rfl) h₂
        | ok o₂ => rw [h₁, h₂] at h; cases h

/-- A swipe on a row the array has does not trap out of range. -/
theorem commitDelete_eq_error {row : ℕ} {p : Post} {e : Trap}
    (hp : app.recentActivity.usersPosts[row]? = some p) (h : app.commitDelete P row = .error e) :
    e = .invalidPath := by
  unfold commitDelete at h
  simp only [hp] at h
  cases hs : (app.removeRows P p.id).sendDeletion p.id with
  | error e' =>
      rw [hs] at h
      obtain rfl : e' = e := Except.error.inj h
      exact sendDeletion_eq_error hs
  | ok writes => rw [hs] at h; cases h

theorem commitDelete_cases {row : ℕ} (h : app.commitDelete P row = .ok (app', os)) :
    ∃ p, app.recentActivity.usersPosts[row]? = some p ∧
      app' = ((app.removeRows P p.id).post .Deletion).reloadRecentActivity ∧
      os = if app.recentActivity.postController = none then []
        else (PostController.deletePostandItsComments (p.id.getD "")).map .write := by
  unfold commitDelete at h
  cases hp : app.recentActivity.usersPosts[row]? with
  | none => rw [hp] at h; cases h
  | some p =>
      simp only [hp] at h
      cases hs : (app.removeRows P p.id).sendDeletion p.id with
      | error e => rw [hs] at h; cases h
      | ok writes =>
          rw [hs] at h
          obtain ⟨rfl, rfl⟩ := Prod.mk.inj (Except.ok.inj h)
          exact ⟨p, rfl, rfl, sendDeletion_eq_ok hs⟩

theorem selectRow_cases {row : ℕ} (h : app.selectRow row = .ok (app', os)) :
    ∃ p, app.messageBoard.localPosts[row]? = some p ∧
      app' = { app with
        details := app.details ++ [⟨app.messageBoard.postController, some p⟩] } ∧
      os = [.detail p] := by
  unfold selectRow at h
  cases hp : app.messageBoard.localPosts[row]? with
  | none => rw [hp] at h; cases h
  | some p =>
      simp only [hp, Except.ok.injEq, Prod.mk.injEq] at h
      exact ⟨p, rfl, h.1.symm, h.2.symm⟩

theorem postButtonTapped_cases {form : CreateMessageBoardViewController} {now : ℚ} {uuid : String}
    (h : app.postButtonTapped P form now uuid = .ok (app', os)) :
    (app' = app ∧ os = []) ∨
      ∃ new r, app.messageBoard.postController = some r ∧
        form.postMessageBoard P (some (app.controllers r)) now = some new ∧
        app' = app.fetchPosts r .postButtonWasTapped ∧ os = [.write (.createPost uuid new)] := by
  unfold postButtonTapped at h
  cases hn : form.postMessageBoard P (app.messageBoard.postController.map app.controllers) now with
  | none =>
      simp only [hn, Except.ok.injEq, Prod.mk.injEq] at h
      exact .inl ⟨h.1.symm, h.2.symm⟩
  | some new =>
      right
      obtain ⟨controller, _, hc, -⟩ := CreateMessageBoardViewController.postMessageBoard_eq_some hn
      obtain ⟨r, hr, rfl⟩ := Option.map_eq_some_iff.mp hc
      refine ⟨new, r, hr, by rw [← hc, hn], ?_⟩
      simp only [hn] at h
      cases hs : send (.createPost uuid new) with
      | error e => rw [hs] at h; cases h
      | ok o =>
          rw [hs] at h
          obtain ⟨rfl, rfl⟩ := Prod.mk.inj (Except.ok.inj h)
          rw [send_eq_ok hs, postButtonWasTapped, hr]
          exact ⟨rfl, rfl⟩

theorem newComment_eq_some {self : DetailPostViewController} {commentText : Option String}
    {author description postID : String}
    (h : app.newComment self commentText = some (author, description, postID)) :
    ∃ post r user, self.post = some post ∧ post.id = some postID ∧
      self.postController = some r ∧ (app.controllers r).user = some user ∧
      author = user.name ∧ commentText = some description := by
  simp only [newComment, Option.bind_eq_bind, Option.bind_eq_some_iff, pure,
    Option.some.injEq, Prod.mk.injEq] at h
  obtain ⟨text, ht, _, -, post, hp, id, hid, r, hr, user, hu, rfl, rfl, rfl⟩ := h
  exact ⟨post, r, user, hp, hid, hr, hu, rfl, ht⟩

theorem postComment_cases {detail : ℕ} {commentText : Option String} {uuid : String}
    (h : app.postComment detail commentText uuid = .ok (app', os)) :
    app' = app ∧ (os = [] ∨ ∃ self author description postID, self ∈ app.details ∧
      app.newComment self commentText = some (author, description, postID) ∧
      os = [.write (.createComment uuid author description postID)]) := by
  unfold postComment at h
  cases hn : app.details[detail]?.bind fun self => app.newComment self commentText with
  | none =>
      simp only [hn, Except.ok.injEq, Prod.mk.injEq] at h
      exact ⟨h.1.symm, .inl h.2.symm⟩
  | some args =>
      obtain ⟨author, description, postID⟩ := args
      obtain ⟨self, hself, hnew⟩ := Option.bind_eq_some_iff.mp hn
      simp only [hn] at h
      cases hs : send (.createComment uuid author description postID) with
      | error e => rw [hs] at h; cases h
      | ok o =>
          rw [hs] at h
          obtain ⟨rfl, rfl⟩ := Prod.mk.inj (Except.ok.inj h)
          rw [send_eq_ok hs]
          exact ⟨rfl, .inr ⟨self, author, description, postID, List.mem_of_getElem? hself, hnew,
            rfl⟩⟩

end touches

/-! ### What is sent -/

/-- The updates among the outputs. -/
def updates (os : List Output) : List Update :=
  os.filterMap fun o =>
    match o with
    | .write u => some u
    | _ => none

@[simp] theorem updates_append (os ps : List Output) :
    updates (os ++ ps) = updates os ++ updates ps := by
  simp [updates]

theorem mem_updates {u : Update} {os : List Output} : u ∈ updates os ↔ .write u ∈ os := by
  simp only [updates, List.mem_filterMap]
  constructor
  · rintro ⟨o, hm, ho⟩
    cases o with
    | write v => exact Option.some.inj ho ▸ hm
    | _ => cases ho
  · exact fun hm => ⟨_, hm, rfl⟩

theorem updates_map_write (us : List Update) : updates (us.map .write) = us := by
  induction us with
  | nil => rfl
  | cons u us ih => simp [updates]

/-- What an event sends to the database. -/
inductive Sends (P : Platform) (app : App) : Event → List Update → Prop
  | nothing {e : Event} : Sends P app e []
  | post {form : CreateMessageBoardViewController} {now : ℚ} {uuid : String} {r : Ref}
      {new : NewPost} : app.messageBoard.postController = some r →
      form.postMessageBoard P (some (app.controllers r)) now = some new →
      Sends P app (.postButtonTapped form now uuid) [.createPost uuid new]
  | comment {detail : ℕ} {commentText : Option String} {self : DetailPostViewController}
      {uuid author description postID : String} : self ∈ app.details →
      app.newComment self commentText = some (author, description, postID) →
      Sends P app (.postComment detail commentText uuid)
        [.createComment uuid author description postID]
  | delete {row : ℕ} {p : Post} : app.recentActivity.usersPosts[row]? = some p →
      Sends P app (.commitDelete row) (PostController.deletePostandItsComments (p.id.getD ""))

theorem sends {P : Platform} {app app' : App} {e : Event} {os : List Output}
    (hs : (machine P).Step app e os app') : Sends P app e (updates os) := by
  obtain ⟨hen, hs⟩ := hs
  cases e with
  | fetchAnswer id answer =>
      obtain ⟨call, -, -, ⟨-, -, rfl⟩ | ⟨records, -, -, rfl⟩⟩ := fetchAnswer_cases hen.1 hs <;>
        exact .nothing
  | commitDelete row =>
      obtain ⟨p, hp, -, rfl⟩ := commitDelete_cases hs
      split
      · exact .nothing
      · rw [updates_map_write]
        exact .delete hp
  | selectRow row =>
      obtain ⟨p, -, -, rfl⟩ := selectRow_cases hs
      exact .nothing
  | postButtonTapped form now uuid =>
      rcases postButtonTapped_cases hs with ⟨-, rfl⟩ | ⟨new, r, hr, hnew, -, rfl⟩
      · exact .nothing
      · exact .post hr hnew
  | postComment detail commentText uuid =>
      obtain ⟨-, rfl | ⟨self, author, description, postID, hself, hnew, rfl⟩⟩ :=
        postComment_cases hs
      · exact .nothing
      · exact .comment hself hnew
  | _ =>
      obtain ⟨-, rfl⟩ := Prod.mk.inj (Except.ok.inj hs)
      exact .nothing

/-- The completions among the outputs. -/
def completions (os : List Output) : List FetchCall :=
  os.filterMap fun o =>
    match o with
    | .completed call => some call
    | _ => none

@[simp] theorem completions_append (os ps : List Output) :
    completions (os ++ ps) = completions os ++ completions ps := by
  simp [completions]

/-- A completion runs in the answer to its own call, and then once. -/
theorem completions_step {P : Platform} {app app' : App} {e : Event} {os : List Output}
    (hs : (machine P).Step app e os app') : completions os = [] ∨
      ∃ call ∈ app.fetches, ∃ records, e = .fetchAnswer call.id (.value (.object records)) ∧
        completions os = [call] := by
  obtain ⟨hen, hs⟩ := hs
  cases e with
  | fetchAnswer id answer =>
      obtain ⟨call, hcall, rfl, ⟨-, -, rfl⟩ | ⟨records, rfl, -, rfl⟩⟩ := fetchAnswer_cases hen.1 hs
      · exact .inl rfl
      · exact .inr ⟨call, hcall, records, rfl, rfl⟩
  | commitDelete row =>
      obtain ⟨p, -, -, rfl⟩ := commitDelete_cases hs
      split <;> exact .inl rfl
  | selectRow row =>
      obtain ⟨p, -, -, rfl⟩ := selectRow_cases hs
      exact .inl rfl
  | postButtonTapped form now uuid =>
      rcases postButtonTapped_cases hs with ⟨-, rfl⟩ | ⟨_, _, -, -, -, rfl⟩ <;> exact .inl rfl
  | postComment detail commentText uuid =>
      obtain ⟨-, rfl | ⟨_, _, _, _, -, -, rfl⟩⟩ := postComment_cases hs <;> exact .inl rfl
  | _ =>
      obtain ⟨-, rfl⟩ := Prod.mk.inj (Except.ok.inj hs)
      exact .inl rfl

end App
end ZipR
