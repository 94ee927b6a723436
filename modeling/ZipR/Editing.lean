import ZipR.Machine
import ZipR.CreateForm

/-! # Editing the description

The delegate callbacks of the description view, from `viewDidLoad` to a tap on Post.

* **Events.** The view begins and ends editing in turn, and its text changes only in between; a
  tap may come at any moment, also while the view is edited.
* **Typed text.** `typed` is what the user last left in the field, empty if nothing was typed.

`description_of_run`: the field holds the typed text, unless there is none and the view is not
edited; then it holds the placeholder.  The Post handler does not look at the colour that tells
them apart, so `description_posted_iff` needs a condition. -/

namespace ZipR

open Reactive

namespace CreateMessageBoardViewController

/-! ### The description view -/

inductive TextEvent where
  | beginEditing
  | changeText (text : String)
  | endEditing
deriving DecidableEq, Repr

/-- The screen, and whether its description view is edited. -/
structure Screen where
  form : CreateMessageBoardViewController
  isEditing : Bool
deriving DecidableEq, Repr

/-- `viewDidLoad`. -/
def viewDidLoad (form : CreateMessageBoardViewController) : Screen := ⟨form.setUpTextView, false⟩

/-- The user's edit: the colour stays. -/
def changeText (self : CreateMessageBoardViewController) (text : String) :
    CreateMessageBoardViewController :=
  { self with descriptionTextView := { self.descriptionTextView with text := text } }

def Screen.step (self : Screen) : TextEvent → Screen
  | .beginEditing => ⟨self.form.textViewDidBeginEditing, true⟩
  | .changeText text => ⟨self.form.changeText text, self.isEditing⟩
  | .endEditing => ⟨self.form.textViewDidEndEditing, false⟩

def Screen.Enabled (self : Screen) : TextEvent → Prop
  | .beginEditing => self.isEditing = false
  | .changeText _ | .endEditing => self.isEditing = true

instance (self : Screen) (e : TextEvent) : Decidable (self.Enabled e) :=
  match e with
  | .beginEditing => inferInstanceAs (Decidable (self.isEditing = false))
  | .changeText _ => inferInstanceAs (Decidable (self.isEditing = true))
  | .endEditing => inferInstanceAs (Decidable (self.isEditing = true))

def machine : Machine Screen TextEvent Unit Trap where
  start self := ∃ form, self = viewDidLoad form
  enabled := Screen.Enabled
  step self e := .ok (self.step e, [])

instance (self : Screen) (e : TextEvent) : Decidable (machine.enabled self e) :=
  inferInstanceAs (Decidable (self.Enabled e))

/-! ### What the field holds -/

/-- The text the user last left in the field. -/
def typed (es : List TextEvent) : String :=
  es.foldl (fun text e =>
    match e with
    | .changeText text => text
    | _ => text) ""

theorem typed_snoc (es : List TextEvent) (e : TextEvent) :
    typed (es ++ [e]) =
      match e with
      | .changeText text => text
      | _ => typed es := by
  rw [typed, List.foldl_concat]
  cases e <;> rfl

/-- What the description view shows for a typed text. -/
def shownText (text : String) (isEditing : Bool) : UITextView :=
  if isEditing = true ∨ text ≠ "" then ⟨text, .black⟩ else ⟨"Text Post", .lightGray⟩

variable {form : CreateMessageBoardViewController} {es : List TextEvent} {os : List Unit}
  {self : Screen}

/-- **The colour tells the placeholder from typed text**, and no event on the view touches the rest
of the form. -/
theorem description_of_run (h : machine.Run (viewDidLoad form) es os self) :
    self.form = { form with descriptionTextView := shownText (typed es) self.isEditing } := by
  refine h.history (P := fun es _ self => self.form =
    { form with descriptionTextView := shownText (typed es) self.isEditing }) ?_ ?_
  · simp [viewDidLoad, setUpTextView, shownText, typed]
  · intro es os self e o self' _ ih hs
    obtain ⟨hen, hs⟩ := hs
    obtain ⟨rfl, -⟩ := Prod.mk.inj (Except.ok.inj hs)
    rw [typed_snoc]
    cases e with
    | beginEditing =>
        have hediting : self.isEditing = false := hen
        simp only [Screen.step, ih, textViewDidBeginEditing, shownText, hediting]
        by_cases htext : typed es = "" <;> simp [htext]
    | changeText text =>
        have hediting : self.isEditing = true := hen
        simp [Screen.step, ih, changeText, shownText, hediting]
    | endEditing =>
        have hediting : self.isEditing = true := hen
        simp only [Screen.step, ih, textViewDidEndEditing, shownText, hediting]
        by_cases htext : typed es = "" <;> simp [htext]

/-- Beginning to edit never erases typed text, not even the placeholder's own. -/
theorem text_beginEditing (h : machine.Run (viewDidLoad form) es os self) :
    self.form.textViewDidBeginEditing.descriptionTextView.text = typed es := by
  rw [description_of_run h, textViewDidBeginEditing, shownText]
  by_cases hshown : self.isEditing = true ∨ typed es ≠ ""
  · simp [hshown]
  · have hnone : typed es = "" := by
      by_contra hne
      exact hshown (.inr hne)
    rw [if_neg hshown, hnone]
    rfl

/-! ### The tap on Post -/

/-- All that `postMessageBoard` asks for but the description: a title and a located user. -/
def Ready (self : CreateMessageBoardViewController) (postController : Option PostController) :
    Prop :=
  (∃ titleString ∈ self.titleTextField, titleString ≠ "") ∧
    ∃ controller ∈ postController, ∃ user ∈ controller.user,
      user.latitude.isSome ∧ user.longitude.isSome

theorem postMessageBoard_isSome_iff {P : Platform} {self : CreateMessageBoardViewController}
    {postController : Option PostController} {now : ℚ} :
    (∃ new, self.postMessageBoard P postController now = some new) ↔
      self.Ready postController ∧ self.descriptionTextView.text ≠ "" := by
  simp only [postMessageBoard, Ready, Option.bind_eq_bind, Option.bind_eq_some_iff, pure,
    Option.guard_eq_some', Option.isSome_iff_exists]
  constructor
  · rintro ⟨_, title, htitle, -, hne, -, htext, controller, hcontroller, user, huser, lat, hlat, long,
      hlong, -⟩
    exact ⟨⟨⟨title, htitle, hne⟩, controller, hcontroller, user, huser, ⟨lat, hlat⟩, long, hlong⟩,
      htext⟩
  · rintro ⟨⟨⟨title, htitle, hne⟩, controller, hcontroller, user, huser, ⟨lat, hlat⟩, long, hlong⟩,
      htext⟩
    exact ⟨_, title, htitle, (), hne, (), htext, controller, hcontroller, user, huser, lat, hlat,
      long, hlong, rfl⟩

theorem postMessageBoard_description {P : Platform} {self : CreateMessageBoardViewController}
    {postController : Option PostController} {now : ℚ} {new : NewPost}
    (h : self.postMessageBoard P postController now = some new) :
    new.description = self.descriptionTextView.text := by
  simp only [postMessageBoard, Option.bind_eq_bind, Option.bind_eq_some_iff, pure,
    Option.some.injEq] at h
  obtain ⟨_, -, _, -, _, -, _, -, _, -, _, -, _, -, rfl⟩ := h
  rfl

/-- **When the placeholder is posted.**  After any events on the view, a tap on Post calls
`createPost` with the typed text or, where there is none, not at all, if and only if there is typed
text, or the view is still edited, or the form is not ready; and beginning to edit leaves the typed
text in the field. -/
theorem description_posted_iff (h : machine.Run (viewDidLoad form) es os self) (P : Platform)
    (postController : Option PostController) (now : ℚ) :
    ((∀ new, self.form.postMessageBoard P postController now = some new →
        new.description = typed es ∧ typed es ≠ "") ↔
      typed es ≠ "" ∨ self.isEditing = true ∨ ¬ form.Ready postController) ∧
    self.form.textViewDidBeginEditing.descriptionTextView.text = typed es := by
  have hform := description_of_run h
  have hready : self.form.Ready postController ↔ form.Ready postController := by
    rw [hform]
    rfl
  refine ⟨?_, text_beginEditing h⟩
  by_cases hshown : self.isEditing = true ∨ typed es ≠ ""
  · -- the field holds the typed text
    have htext : self.form.descriptionTextView.text = typed es := by
      rw [hform, shownText, if_pos hshown]
    refine iff_of_true (fun new hnew => ?_) ?_
    · have hne := (postMessageBoard_isSome_iff.mp ⟨new, hnew⟩).2
      rw [← htext]
      exact ⟨postMessageBoard_description hnew, hne⟩
    · rcases hshown with hediting | hne
      · exact .inr (.inl hediting)
      · exact .inl hne
  · -- the field holds the placeholder
    have htext : self.form.descriptionTextView.text = "Text Post" := by
      rw [hform, shownText, if_neg hshown]
    have hposted : (∃ new, self.form.postMessageBoard P postController now = some new) ↔
        form.Ready postController := by
      rw [postMessageBoard_isSome_iff, htext, hready]
      exact and_iff_left (by decide)
    rw [not_or, not_not] at hshown
    constructor
    · intro hall
      refine .inr (.inr fun hr => ?_)
      obtain ⟨new, hnew⟩ := hposted.mpr hr
      exact (hall new hnew).2 hshown.2
    · rintro (hne | hediting | hnot) new hnew
      · exact absurd hshown.2 hne
      · exact absurd hediting hshown.1
      · exact absurd (hposted.mp ⟨new, hnew⟩) hnot

/-! A form with a title. -/

def titled : CreateMessageBoardViewController := ⟨some "Hello", ⟨"", .black⟩, []⟩

def located : PostController := ⟨some (loggedUser .decimal "A" ⟨75 / 2, -489 / 4⟩), []⟩

theorem placeholder_posted : ∃ os self, machine.Run (viewDidLoad titled) [] os self ∧
    typed [] = "" ∧ ∃ new, self.form.postMessageBoard .decimal (some located) 0 = some new ∧
      new.description = "Text Post" :=
  ⟨[], _, .refl, rfl, _, rfl, rfl⟩

/-- The view is edited, left, and edited again. -/
def typing : List TextEvent :=
  [.beginEditing, .changeText "Text Post", .endEditing, .beginEditing]

theorem description_posted_sample : ∃ os self, machine.Run (viewDidLoad titled) typing os self ∧
    ∀ new, self.form.postMessageBoard .decimal (some located) 0 = some new →
      new.description = "Text Post" := by
  obtain ⟨os, self, hr, -⟩ := Machine.Run.exists_of_exec (M := machine) (Q := fun _ _ => True)
    (s := viewDidLoad titled) (l := typing) (by decide +kernel) (by decide +kernel)
  have hposted := (description_posted_iff hr .decimal (some located) 0).1.mpr (.inl (by decide))
  exact ⟨os, self, hr, fun new hnew => (hposted new hnew).1⟩

end CreateMessageBoardViewController
end ZipR
