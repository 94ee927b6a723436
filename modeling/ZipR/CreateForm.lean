import ZipR.Controllers

/-! # The create form

`CreateMessageBoardViewController.swift`: the title field, the description view with its
placeholder, the tags view, and the Post button.

* The description view is a `UITextView`: assigning nil to its text leaves the empty text.  The
  placeholder is ordinary text; only its colour tells it from what the user typed.
* `postMessageBoard` is a chain of guards: it returns the arguments it calls `createPost` with,
  or `none` where it returns early.  The location and the date of a post are the text of numbers;
  `loggedUser` is where the location comes from. -/

namespace ZipR

/-- `CLLocationCoordinate2D`. -/
structure Coordinate where
  latitude : ℚ
  longitude : ℚ
deriving DecidableEq, Repr

/-- The user a location completion builds from the name it captured. -/
def loggedUser (P : Platform) (name : String) (coordinate : Coordinate) : CurrentUser where
  name := name
  longitude := some (P.string coordinate.longitude)
  latitude := some (P.string coordinate.latitude)

inductive UIColor where
  | lightGray | black
deriving DecidableEq, Repr

structure UITextView where
  text : String
  textColor : UIColor
deriving DecidableEq, Repr

structure CreateMessageBoardViewController where
  titleTextField : Option String
  descriptionTextView : UITextView
  tagViews : List (Option String)
deriving DecidableEq, Repr

namespace CreateMessageBoardViewController

/-- What `setUpTextView` does to the text and its colour. -/
def setUpTextView (self : CreateMessageBoardViewController) : CreateMessageBoardViewController :=
  { self with descriptionTextView := ⟨"Text Post", .lightGray⟩ }

def textViewDidBeginEditing (self : CreateMessageBoardViewController) :
    CreateMessageBoardViewController :=
  if self.descriptionTextView.textColor = .lightGray then
    { self with descriptionTextView := ⟨"", .black⟩ }
  else self

def textViewDidEndEditing (self : CreateMessageBoardViewController) :
    CreateMessageBoardViewController :=
  if self.descriptionTextView.text = "" then
    { self with descriptionTextView := ⟨"Text Post", .lightGray⟩ }
  else self

def postMessageBoard (P : Platform) (self : CreateMessageBoardViewController)
    (postController : Option PostController) (timeIntervalSince1970 : ℚ) : Option NewPost := do
  let titleString ← self.titleTextField
  guard (titleString ≠ "")
  let descriptionString := self.descriptionTextView.text
  guard (descriptionString ≠ "")
  let postController ← postController
  let user ← postController.user
  let lat ← user.latitude
  let long ← user.longitude
  return {
    author := user.name
    title := titleString
    description := descriptionString
    tag := self.tagViews.map fun text => text.getD ""
    lat := lat
    long := long
    date := P.string timeIntervalSince1970 }

/-- What a call of `createPost` takes from the user and the clock. -/
theorem postMessageBoard_eq_some {P : Platform} {self : CreateMessageBoardViewController}
    {postController : Option PostController} {now : ℚ} {new : NewPost}
    (h : self.postMessageBoard P postController now = some new) :
    ∃ controller user, postController = some controller ∧ controller.user = some user ∧
      new.author = user.name ∧ user.latitude = some new.lat ∧ user.longitude = some new.long ∧
      new.date = P.string now := by
  simp only [postMessageBoard, Option.bind_eq_bind, Option.bind_eq_some_iff, pure,
    Option.some.injEq] at h
  obtain ⟨_, -, _, -, _, -, controller, hc, user, hu, lat, hlat, long, hlong, rfl⟩ := h
  exact ⟨controller, user, hc, hu, rfl, hlat, hlong, rfl⟩

end CreateMessageBoardViewController
end ZipR
