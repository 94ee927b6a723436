import ZipR.Machine
import ZipR.Database
import ZipR.CreateForm

/-! # One client

The app process on one device: the view controllers, the post controllers they share, and the
asynchronous callbacks under way.  Everything runs on the main thread, so each callback and each
touch is one event, handled to its end.

* **Objects.** A `PostController` lives on a heap and is held by reference, `Ref`.
  `DefaultTabBarController` makes one and hands it to its three tabs; `signOutTapped` makes
  another one.  Login and detail screens are kept in the order in which they were made.
* **Pending work.** `locationRequests` are the completions passed to `getCurrentLocation` that
  have not run, `fetches` the reads of `Posts` that have not been answered, `mainQueue` the blocks
  enqueued by `DispatchQueue.main.async`.  Replies arrive in any order; the queue is first in,
  first out.
* **Tables.** `rows` are the posts a table shows since its last `reloadData`.  The user acts on
  displayed rows.
* **Accounts.** Signing in sets `Auth.auth().currentUser`.  The Google profile and the Firebase
  account carry the same name.

`App.machine` is the event loop. -/

namespace ZipR

open Reactive

abbrev Ref := ℕ

/-- A Google account, as Firebase Auth reports it. -/
structure Account where
  uid : String
  displayName : Option String
deriving DecidableEq, Repr

inductive NotificationName where
  | UserWasLoggedIn | Deletion
deriving DecidableEq, Repr

/-- The closures passed to `getCurrentLocation`, with the name they captured. -/
inductive LocationCompletion where
  | viewDidAppear (name : String)
  /-- Of the login screen with this index. -/
  | didSignIn (login : ℕ) (name : String)
deriving DecidableEq, Repr

def LocationCompletion.name : LocationCompletion → String
  | viewDidAppear name => name
  | didSignIn _ name => name

/-- The closures passed to `fetchPosts`. -/
inductive FetchCompletion where
  | updateViews | postButtonWasTapped | viewWillAppear
deriving DecidableEq, Repr

/-- A call of `fetchPosts` that waits for its answer. -/
structure FetchCall where
  id : ℕ
  postController : Ref
  completion : FetchCompletion
deriving DecidableEq, Repr

/-- The blocks on the main queue. -/
inductive Block where
  | reloadMessageBoard | reloadRecentActivity
deriving DecidableEq, Repr

structure LoginViewController where
  postController : Option Ref
deriving DecidableEq, Repr

structure DetailPostViewController where
  postController : Option Ref
  post : Option Post
deriving DecidableEq, Repr

structure DefaultTabBarController where
  postController : Ref
deriving DecidableEq, Repr

structure ProfileViewController where
  postController : Option Ref
deriving DecidableEq, Repr

structure MessageBoardTableViewController where
  postController : Option Ref
  usersLat : String
  usersLong : String
  localPosts : List Post
  viewLoaded : Bool
  rows : List Post
deriving DecidableEq, Repr

structure MyRecentActivtyTableViewController where
  postController : Option Ref
  usersPosts : List Post
  rows : List Post
deriving DecidableEq, Repr

structure App where
  appFirstTimeOpend : Bool
  currentUser : Option Account
  controllers : Ref → PostController
  nextRef : Ref
  tabBar : DefaultTabBarController
  messageBoard : MessageBoardTableViewController
  recentActivity : MyRecentActivtyTableViewController
  profile : ProfileViewController
  logins : List LoginViewController
  details : List DetailPostViewController
  /-- The names the message board observes with `updateViews`, one entry for each registration. -/
  observers : List NotificationName
  locationRequests : List LocationCompletion
  fetches : List FetchCall
  nextFetch : ℕ
  mainQueue : List Block

inductive Event where
  | launch (signOutError : Bool)
  | tabBarDidAppear
  | messageBoardDidLoad
  | messageBoardDidAppear
  | recentActivityWillAppear
  | signOutTapped (signOutError : Bool)
  | didSignIn (login : ℕ) (account : Account)
  | locationReply (request : ℕ) (coordinate : Option Coordinate)
  | fetchAnswer (id : ℕ) (answer : Answer)
  | mainQueueBlock
  | commitDelete (row : ℕ)
  | selectRow (row : ℕ)
  | postButtonTapped (form : CreateMessageBoardViewController) (now : ℚ) (uuid : String)
  | postComment (detail : ℕ) (commentText : Option String) (uuid : String)

inductive Output where
  /-- A write is sent to the database. -/
  | write (u : Update)
  /-- The completion of a fetch runs. -/
  | completed (call : FetchCall)
  /-- A detail screen is shown. -/
  | detail (post : Post)
deriving DecidableEq, Repr

namespace App

/-! ### Shared objects -/

def setController (app : App) (r : Ref) (controller : PostController) : App :=
  { app with controllers := Function.update app.controllers r controller }

/-- `controller?.user = user`. -/
def setUser (app : App) (controller : Option Ref) (user : Option CurrentUser) : App :=
  { app with controllers := fun r =>
    if controller = some r then { app.controllers r with user := user } else app.controllers r }

/-- The one controller `DefaultTabBarController` hands to its tabs. -/
def shared (app : App) : PostController := app.controllers app.tabBar.postController

/-- A call of `fetchPosts` on a controller. -/
def fetchPosts (app : App) (r : Ref) (completion : FetchCompletion) : App :=
  { app.setController r (app.controllers r).fetchPosts with
    fetches := app.fetches ++ [⟨app.nextFetch, r, completion⟩]
    nextFetch := app.nextFetch + 1 }

/-! ### The message board -/

def updateViews (app : App) : App :=
  match app.messageBoard.postController with
  | none => app
  | some r => app.fetchPosts r .updateViews

/-- `NotificationCenter.default.post(name:)`: once for each registration. -/
def post (app : App) (name : NotificationName) : App :=
  (app.observers.filter (· = name)).foldl (fun app _ => app.updateViews) app

def messageBoardDidLoad (app : App) : App :=
  { app with
    messageBoard := { app.messageBoard with viewLoaded := true }
    observers := .UserWasLoggedIn :: app.observers }

def messageBoardDidAppear (app : App) : App :=
  { app with observers := .Deletion :: app.observers }

def postButtonWasTapped (app : App) : App :=
  match app.messageBoard.postController with
  | none => app
  | some r => app.fetchPosts r .postButtonWasTapped

/-- `prepare(for:sender:)` for the selected row. -/
def selectRow (app : App) (row : ℕ) : Except Trap (App × List Output) :=
  match app.messageBoard.localPosts[row]? with
  | none => .error .indexOutOfRange
  | some post =>
      .ok ({ app with details := app.details ++ [⟨app.messageBoard.postController, some post⟩] },
        [.detail post])

/-! ### Recent activity -/

def recentActivityWillAppear (app : App) : App :=
  match app.recentActivity.postController with
  | none => app
  | some r => app.fetchPosts r .viewWillAppear

def reloadRecentActivity (app : App) : App :=
  { app with
    recentActivity := { app.recentActivity with rows := app.recentActivity.usersPosts } }

def reloadMessageBoard (app : App) : App :=
  { app with messageBoard := { app.messageBoard with rows := app.messageBoard.localPosts } }

/-- Sending a write; a bad path traps in the sender. -/
def send (u : Update) : Except Trap Output := u.write.map fun _ => .write u

/-- `usersPosts = usersPosts.filter {$0.id != idString}`. -/
def removeRows (P : Platform) (app : App) (idString : Option String) : App :=
  { app with recentActivity := { app.recentActivity with
    usersPosts := app.recentActivity.usersPosts.filter fun p =>
      p.id.map P.canonical ≠ idString.map P.canonical } }

/-- `postController?.deletePostandItsComments(postId: idString ?? "")`. -/
def sendDeletion (app : App) (idString : Option String) : Except Trap (List Output) :=
  match app.recentActivity.postController with
  | none => .ok []
  | some _ => (PostController.deletePostandItsComments (idString.getD "")).mapM send

/-- `tableView(_:commit:forRowAt:)` for the delete action. -/
def commitDelete (P : Platform) (app : App) (row : ℕ) : Except Trap (App × List Output) :=
  match app.recentActivity.usersPosts[row]? with
  | none => .error .indexOutOfRange
  | some post => do
      let app := app.removeRows P post.id
      let writes ← app.sendDeletion post.id
      return ((app.post .Deletion).reloadRecentActivity, writes)

/-! ### Answers to fetches -/

/-- The callback of a fetch up to its completion: what it leaves, and the arguments of the
completion calls it makes. -/
def answered (app : App) (call : FetchCall) (answer : Answer) : App × List (Option String) :=
  let (controller, errors) := (app.controllers call.postController).fetchPostsAnswered answer
  ({ app.setController call.postController controller with
      fetches := app.fetches.filter fun c => c.id ≠ call.id }, errors)

section completions
variable (P : Platform)

/-- `self.postController?.parsePosts(lat: self.usersLat, long: self.usersLong) ?? []`. -/
def parsePostsAgain (app : App) : Except Trap (List Post) :=
  match app.messageBoard.postController with
  | none => .ok []
  | some r =>
      (app.controllers r).parsePosts P app.messageBoard.usersLat app.messageBoard.usersLong

/-- The completion of a fetch without an error. -/
def complete (app : App) (call : FetchCall) : Except Trap App :=
  let controller := app.controllers call.postController
  match call.completion with
  | .updateViews => do
      let usersLat := (controller.user.bind CurrentUser.latitude).getD ""
      let usersLong := (controller.user.bind CurrentUser.longitude).getD ""
      let localPosts ← controller.parsePosts P usersLat usersLong
      return { app with
        messageBoard := { app.messageBoard with
          usersLat := usersLat, usersLong := usersLong, localPosts := localPosts }
        mainQueue := app.mainQueue ++ [.reloadMessageBoard] }
  | .postButtonWasTapped => do
      let localPosts ← app.parsePostsAgain P
      return { app with
        messageBoard := { app.messageBoard with localPosts := localPosts }
        mainQueue := app.mainQueue ++ [.reloadMessageBoard] }
  | .viewWillAppear => do
      let usersPosts ← filterPostsByUserandDate P controller.posts
        ((controller.user.map CurrentUser.name).getD "")
      return { app with
        recentActivity := { app.recentActivity with usersPosts := usersPosts }
        mainQueue := app.mainQueue ++ [.reloadRecentActivity] }

/-- The completion calls of an answer, one after the other. -/
def completeAll (call : FetchCall) :
    List (Option String) → App → Except Trap (App × List Output)
  | [], app => .ok (app, [])
  | error :: errors, app => do
      let app ← match error with
        | some _ => .ok app
        | none => app.complete P call
      let (app, outputs) ← completeAll call errors app
      return (app, .completed call :: outputs)

def fetchAnswer (app : App) (id : ℕ) (answer : Answer) : Except Trap (App × List Output) :=
  match app.fetches.find? fun c => c.id = id with
  | none => .ok (app, [])
  | some call =>
      let (app, errors) := app.answered call answer
      completeAll P call errors app

end completions

/-! ### Signing in and out -/

def tabBarDidAppear (app : App) : App :=
  match app.currentUser with
  | some account =>
      match account.displayName with
      | none => app
      | some name =>
          { app with locationRequests := app.locationRequests ++ [.viewDidAppear name] }
  | none =>
      match app.shared.user with
      | some _ => app
      | none => { app with logins := app.logins ++ [⟨some app.tabBar.postController⟩] }

/-- `sign(_:didSignInFor:withError:)` when both sign-ins succeed. -/
def didSignIn (app : App) (login : ℕ) (account : Account) : App :=
  let app := { app with currentUser := some account }
  match account.displayName with
  | none => app
  | some name => { app with locationRequests := app.locationRequests ++ [.didSignIn login name] }

/-- The controller a location completion writes to. -/
def recipient (app : App) : LocationCompletion → Option Ref
  | .viewDidAppear _ => some app.tabBar.postController
  | .didSignIn login _ => app.logins[login]?.bind LoginViewController.postController

/-- Either location completion. -/
def locationCompletion (P : Platform) (app : App) (completion : LocationCompletion) :
    Option Coordinate → App
  | none => app
  | some coordinate =>
      (app.setUser (app.recipient completion)
        (some (loggedUser P completion.name coordinate))).post .UserWasLoggedIn

def locationReply (P : Platform) (app : App) (request : ℕ) (coordinate : Option Coordinate) :
    App :=
  match app.locationRequests[request]? with
  | none => app
  | some completion =>
      let app := { app with locationRequests := app.locationRequests.eraseIdx request }
      app.locationCompletion P completion coordinate

def signOutTapped (app : App) (signOutError : Bool) : App :=
  if signOutError then app
  else
    let app := { app with currentUser := none }
    let app := app.setUser app.profile.postController none
    { app.setController app.nextRef .new with
      nextRef := app.nextRef + 1
      logins := app.logins ++ [⟨some app.nextRef⟩] }

/-- A process start: the application delegate, then the tab bar controller's `viewDidLoad`.
What outlives a process is the sign-in and the first-time flag. -/
def launch (app : App) (signOutError : Bool) : App where
  appFirstTimeOpend := true
  currentUser := if app.appFirstTimeOpend ∨ signOutError then app.currentUser else none
  controllers := fun _ => .new
  nextRef := 1
  tabBar := ⟨0⟩
  messageBoard := ⟨some 0, "0", "0", [], false, []⟩
  recentActivity := ⟨some 0, [], []⟩
  profile := ⟨some 0⟩
  logins := []
  details := []
  observers := []
  locationRequests := []
  fetches := []
  nextFetch := app.nextFetch
  mainQueue := []

/-! ### Posting -/

def postButtonTapped (P : Platform) (app : App) (form : CreateMessageBoardViewController) (now : ℚ)
    (uuid : String) : Except Trap (App × List Output) :=
  match form.postMessageBoard P (app.messageBoard.postController.map app.controllers) now with
  | none => .ok (app, [])
  | some new => do
      let write ← send (.createPost uuid new)
      return (app.postButtonWasTapped, [write])

/-- The arguments of the call of `createComment`. -/
def newComment (app : App) (self : DetailPostViewController) (commentText : Option String) :
    Option (String × String × String) := do
  let commentText ← commentText
  guard (commentText ≠ "")
  let post ← self.post
  let postID ← post.id
  let postController ← self.postController
  let user ← (app.controllers postController).user
  return (user.name, commentText, postID)

def postComment (app : App) (detail : ℕ) (commentText : Option String) (uuid : String) :
    Except Trap (App × List Output) :=
  match app.details[detail]?.bind fun self => app.newComment self commentText with
  | none => .ok (app, [])
  | some (author, description, postID) => do
      let write ← send (.createComment uuid author description postID)
      return (app, [write])

/-! ### The event loop -/

def mainQueueBlock (app : App) : App :=
  match app.mainQueue with
  | [] => app
  | .reloadMessageBoard :: blocks => { app.reloadMessageBoard with mainQueue := blocks }
  | .reloadRecentActivity :: blocks => { app.reloadRecentActivity with mainQueue := blocks }

def step (P : Platform) (app : App) : Event → Except Trap (App × List Output)
  | .launch signOutError => .ok (app.launch signOutError, [])
  | .tabBarDidAppear => .ok (app.tabBarDidAppear, [])
  | .messageBoardDidLoad => .ok (app.messageBoardDidLoad, [])
  | .messageBoardDidAppear => .ok (app.messageBoardDidAppear, [])
  | .recentActivityWillAppear => .ok (app.recentActivityWillAppear, [])
  | .signOutTapped signOutError => .ok (app.signOutTapped signOutError, [])
  | .didSignIn login account => .ok (app.didSignIn login account, [])
  | .locationReply request coordinate => .ok (app.locationReply P request coordinate, [])
  | .fetchAnswer id answer => app.fetchAnswer P id answer
  | .mainQueueBlock => .ok (app.mainQueueBlock, [])
  | .commitDelete row => app.commitDelete P row
  | .selectRow row => app.selectRow row
  | .postButtonTapped form now uuid => app.postButtonTapped P form now uuid
  | .postComment detail commentText uuid => app.postComment detail commentText uuid

end App

/-- The dictionary of an answer has every key once. -/
def Answer.Keyed : Answer → Prop
  | .value (.object records) => (records.map Prod.fst).Nodup
  | _ => True

instance (answer : Answer) : Decidable answer.Keyed := by
  unfold Answer.Keyed
  split <;> infer_instance

namespace App

/-- When an event can occur. -/
def Enabled (app : App) : Event → Prop
  | .messageBoardDidLoad => app.messageBoard.viewLoaded = false
  | .messageBoardDidAppear => app.messageBoard.viewLoaded = true
  | .didSignIn login _ => login < app.logins.length
  | .locationReply request _ => request < app.locationRequests.length
  | .fetchAnswer id answer => (∃ call ∈ app.fetches, call.id = id) ∧ answer.Keyed
  | .mainQueueBlock => app.mainQueue ≠ []
  | .commitDelete row => row < app.recentActivity.rows.length
  | .selectRow row => row < app.messageBoard.rows.length
  | .postComment detail _ _ => detail < app.details.length
  | _ => True

instance (app : App) (e : Event) : Decidable (app.Enabled e) := by
  cases e <;> unfold Enabled <;> infer_instance

/-- A device on which the app has not run yet in this history. -/
def off (appFirstTimeOpend : Bool) (currentUser : Option Account) : App where
  appFirstTimeOpend := appFirstTimeOpend
  currentUser := currentUser
  controllers := fun _ => .new
  nextRef := 0
  tabBar := ⟨0⟩
  messageBoard := ⟨none, "0", "0", [], false, []⟩
  recentActivity := ⟨none, [], []⟩
  profile := ⟨none⟩
  logins := []
  details := []
  observers := []
  locationRequests := []
  fetches := []
  nextFetch := 0
  mainQueue := []

/-- The app on one device, from its first launch on. -/
def machine (P : Platform) : Machine App Event Output Trap where
  start app := ∃ flag account signOutError, app = (off flag account).launch signOutError
  enabled := Enabled
  step := step P

/-- The first launch, with nobody signed in. -/
def firstLaunch : App := (off false none).launch false

theorem start_firstLaunch (P : Platform) : (machine P).start firstLaunch := ⟨false, none, false, rfl⟩

instance (P : Platform) (app : App) (e : Event) : Decidable ((machine P).enabled app e) :=
  inferInstanceAs (Decidable (app.Enabled e))

end App
end ZipR
