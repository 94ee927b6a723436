import ZipR.Editing
import ZipR.Toggle

/-! # Choosing tags

`PostTagTableViewController.swift`, and the create form that presents it.

* **Sessions.** Each segue presents a new picker with nothing checked.  A tap on a row checks or
  unchecks its tag; Done hands the checked tags to the form, and the picker can also be swiped away.
* **The form.** `tagsWerePicked` appends what it is handed to the tags view, whatever is there.

`tagViews_of_run` says what the tags view holds.  A picker never has a tag twice, but two of them
can have the same one: `tags_once_iff`. -/

namespace ZipR

open Reactive Toggle

/-! ### The picker -/

namespace Tag

theorem rawValue_injective : Function.Injective rawValue := by
  intro a b h
  cases a <;> cases b <;> first | rfl | exact absurd h (by decide)

/-- The row of the picker that shows the tag. -/
def row (tag : Tag) : ℕ := allCases.idxOf tag

theorem getElem?_allCases_iff {row : ℕ} {tag : Tag} : allCases[row]? = some tag ↔ row = tag.row := by
  constructor
  · intro h
    obtain ⟨hlt, rfl⟩ := List.getElem?_eq_some_iff.mp h
    exact ((show allCases.Nodup by decide).idxOf_getElem row hlt).symm
  · rintro rfl
    cases tag <;> rfl

end Tag

structure PostTagTableViewController where
  tags : List String
deriving DecidableEq, Repr

namespace PostTagTableViewController

def new : PostTagTableViewController := ⟨[]⟩

def toggleTag (self : PostTagTableViewController) (tagString : String) : Bool :=
  if self.tags.contains tagString then true else false

def numberOfRowsInSection : ℕ := Tag.allCases.length

/-- The text of the row, and whether it has a check mark. -/
def cellForRowAt (capitalized : String → String) (self : PostTagTableViewController) (row : ℕ) :
    Except Trap (String × Bool) :=
  match Tag.allCases[row]? with
  | none => .error .indexOutOfRange
  | some tag =>
      let tagString := tag.rawValue
      .ok (capitalized tagString, self.toggleTag tagString)

def didSelectRowAt (self : PostTagTableViewController) (row : ℕ) :
    Except Trap PostTagTableViewController :=
  match Tag.allCases[row]? with
  | none => .error .indexOutOfRange
  | some tag =>
      let tagString := tag.rawValue
      .ok (if self.toggleTag tagString then
        match self.tags.idxOf? tagString with
        | some index => { self with tags := self.tags.eraseIdx index }
        | none => self
      else { self with tags := self.tags ++ [tagString] })

theorem toggleTag_iff {self : PostTagTableViewController} {tagString : String} :
    self.toggleTag tagString = true ↔ tagString ∈ self.tags := by
  simp [toggleTag]

/-- A tap on a row toggles its tag. -/
theorem didSelectRowAt_eq (self : PostTagTableViewController) {row : ℕ} {tag : Tag}
    (h : Tag.allCases[row]? = some tag) :
    self.didSelectRowAt row = .ok ⟨toggle self.tags tag.rawValue⟩ := by
  have herase := List.erase_eq_eraseIdx (l := self.tags) (a := tag.rawValue)
  unfold didSelectRowAt toggle
  simp only [h, toggleTag_iff]
  split_ifs with hmem
  · rw [herase]
    cases self.tags.idxOf? tag.rawValue <;> rfl
  · rfl

end PostTagTableViewController

namespace CreateMessageBoardViewController

/-- `tagsView.addTags(tags)`: one tag view for each title, appended in order. -/
def tagsWerePicked (self : CreateMessageBoardViewController) (tags : List String) :
    CreateMessageBoardViewController :=
  { self with tagViews := self.tagViews ++ tags.map some }

/-! ### The form and its picker -/

/-- The form, and the picker it has presented with itself as the delegate. -/
structure TagScreen where
  form : CreateMessageBoardViewController
  picker : Option PostTagTableViewController
deriving DecidableEq, Repr

inductive TagEvent where
  /-- `prepare(for:sender:)` for a new picker. -/
  | prepareForSegue
  | didSelectRowAt (row : ℕ)
  | doneButtonTapped
  /-- The picker is swiped away. -/
  | abandoned
  /-- The user edits the other fields of the form. -/
  | edited (titleTextField : Option String) (descriptionTextView : UITextView)
deriving DecidableEq, Repr

/-- A create form as the segue makes it, with no tag views. -/
def opened (form : CreateMessageBoardViewController) : TagScreen :=
  ⟨{ form with tagViews := [] }, none⟩

def TagScreen.step (self : TagScreen) : TagEvent → Except Trap TagScreen
  | .prepareForSegue => .ok { self with picker := some .new }
  | .didSelectRowAt row =>
      match self.picker with
      | none => .ok self
      | some picker => do
          let picker ← picker.didSelectRowAt row
          return { self with picker := some picker }
  | .doneButtonTapped =>
      match self.picker with
      | none => .ok self
      | some picker => .ok ⟨self.form.tagsWerePicked picker.tags, none⟩
  | .abandoned => .ok { self with picker := none }
  | .edited titleTextField descriptionTextView =>
      .ok { self with form := { self.form with
        titleTextField := titleTextField, descriptionTextView := descriptionTextView } }

def TagScreen.Enabled (self : TagScreen) : TagEvent → Prop
  | .prepareForSegue => self.picker = none
  | .didSelectRowAt row =>
      self.picker ≠ none ∧ row < PostTagTableViewController.numberOfRowsInSection
  | .doneButtonTapped | .abandoned => self.picker ≠ none
  | .edited _ _ => True

instance (self : TagScreen) (e : TagEvent) : Decidable (self.Enabled e) := by
  cases e <;> unfold TagScreen.Enabled <;> infer_instance

def tagMachine : Machine TagScreen TagEvent Unit Trap where
  start self := ∃ form, self = opened form
  enabled := TagScreen.Enabled
  step self e := (self.step e).map fun self => (self, [])

instance (self : TagScreen) (e : TagEvent) : Decidable (tagMachine.enabled self e) :=
  inferInstanceAs (Decidable (self.Enabled e))

/-- A tap on a row of the picker toggles its tag. -/
theorem step_didSelectRowAt {self : TagScreen} {row : ℕ}
    (h : self.Enabled (.didSelectRowAt row)) : ∃ picker tag, self.picker = some picker ∧
      Tag.allCases[row]? = some tag ∧ self.step (.didSelectRowAt row) =
        .ok { self with picker := some ⟨toggle picker.tags tag.rawValue⟩ } := by
  obtain ⟨hpicker, hrow⟩ := h
  obtain ⟨picker, hp⟩ := Option.ne_none_iff_exists'.mp hpicker
  have htag : Tag.allCases[row]? = some (Tag.allCases.get ⟨row, hrow⟩) :=
    List.getElem?_eq_getElem hrow
  refine ⟨picker, _, hp, htag, ?_⟩
  simp only [TagScreen.step, hp, picker.didSelectRowAt_eq htag]
  rfl

/-- No tap of the picker is out of range. -/
theorem tagMachine_total {self : TagScreen} {e : TagEvent} (h : self.Enabled e) :
    ∃ self', tagMachine.Step self e [] self' := by
  suffices hok : ∃ self', self.step e = .ok self' by
    obtain ⟨self', hok⟩ := hok
    exact ⟨self', h, by simp [tagMachine, hok, Except.map]⟩
  cases e with
  | didSelectRowAt row =>
      obtain ⟨_, _, -, -, hs⟩ := step_didSelectRowAt h
      exact ⟨_, hs⟩
  | doneButtonTapped =>
      unfold TagScreen.step
      cases self.picker <;> exact ⟨_, rfl⟩
  | _ => exact ⟨_, rfl⟩

/-! ### Sessions -/

/-- The rows tapped in the session under way, and in each session that ended by Done. -/
structure TagSessions where
  tapped : List ℕ
  finished : List (List ℕ)

def TagSessions.next (sessions : TagSessions) : TagEvent → TagSessions
  | .prepareForSegue => { sessions with tapped := [] }
  | .didSelectRowAt row => { sessions with tapped := sessions.tapped ++ [row] }
  | .doneButtonTapped => { sessions with finished := sessions.finished ++ [sessions.tapped] }
  | .abandoned | .edited _ _ => sessions

def tagSessions (es : List TagEvent) : TagSessions := es.foldl TagSessions.next ⟨[], []⟩

theorem tagSessions_concat (es : List TagEvent) (e : TagEvent) :
    tagSessions (es ++ [e]) = (tagSessions es).next e := List.foldl_concat ..

/-- The tag was left checked: its row was tapped an odd number of times. -/
def Checked (rows : List ℕ) (tag : Tag) : Prop := Odd (rows.count tag.row)

instance (rows : List ℕ) (tag : Tag) : Decidable (Checked rows tag) :=
  inferInstanceAs (Decidable (Odd (rows.count tag.row)))

/-- The strings the taps toggle. -/
def tagStrings (rows : List ℕ) : List String :=
  rows.filterMap fun row => Tag.allCases[row]?.map Tag.rawValue

theorem tagStrings_concat {row : ℕ} {tag : Tag} (h : Tag.allCases[row]? = some tag)
    (rows : List ℕ) : tagStrings (rows ++ [row]) = tagStrings rows ++ [tag.rawValue] := by
  simp [tagStrings, h]

theorem count_tagStrings (rows : List ℕ) (tag : Tag) :
    (tagStrings rows).count tag.rawValue = rows.count tag.row := by
  induction rows with
  | nil => rfl
  | cons row rows ih =>
      rw [tagStrings, List.filterMap_cons, List.count_cons, ← ih]
      by_cases h : row = tag.row
      · rw [Tag.getElem?_allCases_iff.mpr h]
        simp [tagStrings, h]
      · cases hrow : Tag.allCases[row]? with
        | none => simp [tagStrings, h]
        | some other =>
            have hne : other ≠ tag := fun he => h (Tag.getElem?_allCases_iff.mp (he ▸ hrow))
            simp [tagStrings, h, Tag.rawValue_injective.eq_iff, hne]

/-- The strings toggled an odd number of times are those of the tags left checked. -/
theorem odd_count_tagStrings_iff {rows : List ℕ} {tagString : String} :
    Odd ((tagStrings rows).count tagString) ↔ ∃ tag : Tag, tag.rawValue = tagString ∧
      Checked rows tag := by
  constructor
  · intro hodd
    obtain ⟨row, -, hrow⟩ := List.mem_filterMap.mp (List.count_pos_iff.mp hodd.pos)
    obtain ⟨tag, -, rfl⟩ := Option.map_eq_some_iff.mp hrow
    rw [count_tagStrings] at hodd
    exact ⟨tag, rfl, hodd⟩
  · rintro ⟨tag, rfl, hchecked⟩
    rw [count_tagStrings]
    exact hchecked

variable {form : CreateMessageBoardViewController} {es : List TagEvent} {os : List Unit}
  {self : TagScreen}

/-- **What the tags view holds**: the tags of each finished session, one session after the other. -/
theorem tagViews_of_run (h : tagMachine.Run (opened form) es os self) :
    (∀ picker ∈ self.picker, picker.tags = toggles (tagStrings (tagSessions es).tapped)) ∧
      self.form.tagViews =
        (((tagSessions es).finished.map tagStrings).map toggles).flatten.map some := by
  refine h.history (P := fun es _ self =>
    (∀ picker ∈ self.picker, picker.tags = toggles (tagStrings (tagSessions es).tapped)) ∧
      self.form.tagViews =
        (((tagSessions es).finished.map tagStrings).map toggles).flatten.map some) ?_ ?_
  · exact ⟨by simp [opened], rfl⟩
  · rintro es os self e o self' - ⟨hpicker, hviews⟩ ⟨hen, hs⟩
    rw [tagSessions_concat]
    cases e with
    | prepareForSegue =>
        obtain ⟨rfl, -⟩ := Prod.mk.inj (Except.ok.inj hs)
        refine ⟨?_, hviews⟩
        rintro picker ⟨⟩
        rfl
    | didSelectRowAt row =>
        obtain ⟨picker, tag, hp, htag, hstep⟩ := step_didSelectRowAt hen
        simp only [tagMachine, hstep] at hs
        obtain ⟨rfl, -⟩ := Prod.mk.inj (Except.ok.inj hs)
        refine ⟨?_, hviews⟩
        rintro picker' ⟨⟩
        simp only [TagSessions.next]
        rw [tagStrings_concat htag, toggles_concat, hpicker picker hp]
    | doneButtonTapped =>
        obtain ⟨picker, hp⟩ := Option.ne_none_iff_exists'.mp hen
        simp only [tagMachine, TagScreen.step, hp] at hs
        obtain ⟨rfl, -⟩ := Prod.mk.inj (Except.ok.inj hs)
        refine ⟨by simp, ?_⟩
        simp [tagsWerePicked, TagSessions.next, hviews, hpicker picker hp]
    | abandoned =>
        obtain ⟨rfl, -⟩ := Prod.mk.inj (Except.ok.inj hs)
        exact ⟨by simp, hviews⟩
    | edited titleTextField descriptionTextView =>
        obtain ⟨rfl, -⟩ := Prod.mk.inj (Except.ok.inj hs)
        exact ⟨hpicker, hviews⟩

/-- The picker shows a check mark beside the tags toggled so far an odd number of times. -/
theorem cellForRowAt_of_run (h : tagMachine.Run (opened form) es os self)
    {picker : PostTagTableViewController} (hpicker : self.picker = some picker)
    (capitalized : String → String) (tag : Tag) : picker.cellForRowAt capitalized tag.row =
      .ok (capitalized tag.rawValue, decide (Checked (tagSessions es).tapped tag)) := by
  have hrow := Tag.getElem?_allCases_iff.mpr (rfl : tag.row = tag.row)
  have hshown : picker.toggleTag tag.rawValue =
      decide (Checked (tagSessions es).tapped tag) := by
    rw [Bool.eq_iff_iff, decide_eq_true_eq, PostTagTableViewController.toggleTag_iff,
      (tagViews_of_run h).1 picker hpicker, mem_toggles_iff, count_tagStrings, Checked]
  simp only [PostTagTableViewController.cellForRowAt, hrow, hshown]

/-! ### The tags of a post -/

theorem postMessageBoard_tag {P : Platform} {self : CreateMessageBoardViewController}
    {postController : Option PostController} {now : ℚ} {new : NewPost}
    (h : self.postMessageBoard P postController now = some new) :
    new.tag = self.tagViews.map fun text => text.getD "" := by
  simp only [postMessageBoard, Option.bind_eq_bind, Option.bind_eq_some_iff, pure,
    Option.some.injEq] at h
  obtain ⟨_, -, _, -, _, -, _, -, _, -, _, -, _, -, rfl⟩ := h
  rfl

/-- `createPost` is given the tags of each finished session, one session after the other. -/
theorem tag_of_run (h : tagMachine.Run (opened form) es os self) {P : Platform}
    {postController : Option PostController} {now : ℚ} {new : NewPost}
    (hnew : self.form.postMessageBoard P postController now = some new) :
    new.tag = (((tagSessions es).finished.map tagStrings).map toggles).flatten := by
  rw [postMessageBoard_tag hnew, (tagViews_of_run h).2, List.map_map]
  exact List.map_id _

/-- **When a post carries each chosen tag once.**  After any sessions, `createPost` is given a list
without repetitions that holds the tags some finished session left checked, and no other string, if
and only if no tag was left checked by two of them. -/
theorem tags_once_iff (h : tagMachine.Run (opened form) es os self) {P : Platform}
    {postController : Option PostController} {now : ℚ} {new : NewPost}
    (hnew : self.form.postMessageBoard P postController now = some new) :
    (new.tag.Nodup ∧ ∀ tagString, tagString ∈ new.tag ↔
      ∃ rows ∈ (tagSessions es).finished, ∃ tag, tag.rawValue = tagString ∧ Checked rows tag) ↔
    (tagSessions es).finished.Pairwise fun rows rows' =>
      ∀ tag, ¬ (Checked rows tag ∧ Checked rows' tag) := by
  have hmem : ∀ tagString, tagString ∈ new.tag ↔
      ∃ rows ∈ (tagSessions es).finished, ∃ tag : Tag, tag.rawValue = tagString ∧
        Checked rows tag := by
    intro tagString
    rw [tag_of_run h hnew]
    simp only [List.mem_flatten, List.mem_map, exists_exists_and_eq_and, mem_toggles_iff,
      odd_count_tagStrings_iff]
  rw [and_iff_left hmem, tag_of_run h hnew, nodup_flatten_toggles_iff, List.pairwise_map]
  refine List.Pairwise.iff fun rows rows' => ?_
  simp only [odd_count_tagStrings_iff]
  constructor
  · rintro hall tag ⟨hrows, hrows'⟩
    exact hall tag.rawValue ⟨⟨tag, rfl, hrows⟩, tag, rfl, hrows'⟩
  · rintro hall tagString ⟨⟨tag, rfl, hrows⟩, tag', heq, hrows'⟩
    obtain rfl := Tag.rawValue_injective heq
    exact hall tag' ⟨hrows, hrows'⟩

/-! A form that is filled in before its tags are picked. -/

/-- Sessions on a form with title and description. -/
def filledIn (es : List TagEvent) : List TagEvent :=
  .edited (some "Hello") ⟨"First post", .black⟩ :: es

/-- The picker is opened twice, and the same row tapped each time. -/
def pickedTwice : List TagEvent :=
  filledIn [.prepareForSegue, .didSelectRowAt 1, .doneButtonTapped,
    .prepareForSegue, .didSelectRowAt 1, .doneButtonTapped]

theorem tag_repeated : ∃ os self new, tagMachine.Run (opened titled) pickedTwice os self ∧
    self.form.postMessageBoard .decimal (some located) 0 = some new ∧ new.tag = ["art", "art"] := by
  obtain ⟨os, self, hr, hnew⟩ := Machine.Run.exists_of_exec (M := tagMachine)
    (s := opened titled) (l := pickedTwice) (Q := fun self _ =>
      (self.form.postMessageBoard .decimal (some located) 0).map NewPost.tag = some ["art", "art"])
    (by decide +kernel) (by decide +kernel)
  obtain ⟨new, hnew, htag⟩ := Option.map_eq_some_iff.mp hnew
  exact ⟨os, self, new, hr, hnew, htag⟩

/-- Each session leaves another tag checked, and one is abandoned. -/
def pickedApart : List TagEvent :=
  filledIn [.prepareForSegue, .didSelectRowAt 1, .doneButtonTapped,
    .prepareForSegue, .didSelectRowAt 1, .abandoned,
    .prepareForSegue, .didSelectRowAt 1, .didSelectRowAt 3, .didSelectRowAt 1, .doneButtonTapped]

theorem tags_once_sample : ∃ os self new, tagMachine.Run (opened titled) pickedApart os self ∧
    self.form.postMessageBoard .decimal (some located) 0 = some new ∧ new.tag.Nodup := by
  obtain ⟨os, self, hr, hnew⟩ := Machine.Run.exists_of_exec (M := tagMachine)
    (s := opened titled) (l := pickedApart) (Q := fun self _ =>
      (self.form.postMessageBoard .decimal (some located) 0).isSome)
    (by decide +kernel) (by decide +kernel)
  obtain ⟨new, hnew⟩ := Option.isSome_iff_exists.mp hnew
  have hfinished : (tagSessions pickedApart).finished = [[1], [1, 3, 1]] := rfl
  have hapart := (tags_once_iff hr hnew).mpr (by
    rw [hfinished]
    simp only [List.pairwise_cons, List.mem_singleton, forall_eq]
    refine ⟨fun tag => ?_, by simp⟩
    cases tag <;> decide)
  exact ⟨os, self, new, hr, hnew, hapart.1⟩

end CreateMessageBoardViewController
end ZipR
