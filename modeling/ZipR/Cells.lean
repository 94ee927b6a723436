import Mathlib.Algebra.Ring.Parity
import ZipR.Machine
import ZipR.Controllers

/-! # The cells of the message board

`MessageBoardTableViewCell.swift`, and the table that uses its cells again and again.

* **Binding.** `setPost` is the setter of `post` with its observer.  It makes every text of the cell
  anew and leaves the flag button as it is (`setPost_eq`).
* **Reuse.** A table binds any cell that is not on screen, new or pooled, to the post of a row.  A
  reload takes all cells off the screen.
* **Taps.** The output of a tap tells the cell and the id of the post it displays.

The button tells the taps on the cell (`flagPostButton_iff`); `flags_stay_iff` says when these are
the taps on the post. -/

namespace ZipR

open Reactive

/-- The texts Foundation makes. -/
structure Foundation where
  capitalized : String → String
  /-- `DateFormatter.string(from:)`, of the date format and the seconds since 1970. -/
  string : String → Double → String

/-! ### The cell -/

structure MessageBoardTableViewCell where
  tagListView : List String
  authorLabel : String
  titleLabel : String
  dateLabel : String
  /-- `flagPostButton.isSelected`. -/
  flagPostButton : Bool
  post : Option Post
deriving DecidableEq, Repr

namespace MessageBoardTableViewCell

/-- A cell as the storyboard makes it. -/
def prototype : MessageBoardTableViewCell := ⟨[], "Author", "Title", "Date", false, none⟩

section texts
variable (P : Platform) (F : Foundation)

def dateString (dateString : String) : String :=
  match P.double dateString with
  | none => ""
  | some timeInterval => F.string "MM/dd/yyyy" timeInterval

def updateViews (self : MessageBoardTableViewCell) : MessageBoardTableViewCell :=
  match self.post with
  | none => self
  | some post =>
      { self with
        authorLabel := post.author
        titleLabel := post.title
        dateLabel := dateString P F post.date
        tagListView := (post.tag.map fun tags => tags.map F.capitalized).getD [] }

/-- `cell.post = post`. -/
def setPost (self : MessageBoardTableViewCell) (post : Option Post) : MessageBoardTableViewCell :=
  updateViews P F { self with post := post }

/-- A cell bound to a post looks like a new one, its flag button apart. -/
theorem setPost_eq (self : MessageBoardTableViewCell) (post : Post) :
    self.setPost P F (some post) =
      { prototype.setPost P F (some post) with flagPostButton := self.flagPostButton } := rfl

@[simp] theorem setPost_flagPostButton (self : MessageBoardTableViewCell) (post : Post) :
    (self.setPost P F (some post)).flagPostButton = self.flagPostButton := rfl

@[simp] theorem setPost_post (self : MessageBoardTableViewCell) (post : Post) :
    (self.setPost P F (some post)).post = some post := rfl

end texts

def flagButtonPressed (self : MessageBoardTableViewCell) : MessageBoardTableViewCell :=
  { self with flagPostButton := !self.flagPostButton }

end MessageBoardTableViewCell

/-! ### The table -/

/-- The table of the message board: the posts of its data source, the number of rows it was told at
its last reload, its cells, and those on screen. -/
structure MessageBoardTable where
  localPosts : List Post
  numberOfRows : ℕ
  cells : ℕ → MessageBoardTableViewCell
  displayed : List ℕ

inductive TableEvent where
  /-- A completed fetch assigns `localPosts`. -/
  | fetched (localPosts : List Post)
  | reloadData
  /-- The table asks for the cell of a row, and this cell is dequeued. -/
  | cellForRowAt (cell row : ℕ)
  /-- The cell scrolls off the screen. -/
  | didEndDisplaying (cell : ℕ)
  | flagButtonPressed (cell : ℕ)
deriving DecidableEq, Repr

/-- A tap on the flag button of a cell, and the id of the post it displays. -/
structure FlagTap where
  cell : ℕ
  post : Option String
deriving DecidableEq, Repr

namespace MessageBoardTable

def new : MessageBoardTable := ⟨[], 0, fun _ => .prototype, []⟩

/-- The id of the post a cell displays. -/
def postID (self : MessageBoardTable) (cell : ℕ) : Option String :=
  (self.cells cell).post.bind Post.id

theorem postID_eq {self : MessageBoardTable} {cell : ℕ} {post : Post}
    (h : (self.cells cell).post = some post) : self.postID cell = post.id := by
  rw [postID, h]
  rfl

def setCell (self : MessageBoardTable) (cell : ℕ) (value : MessageBoardTableViewCell) :
    MessageBoardTable :=
  { self with cells := Function.update self.cells cell value }

@[simp] theorem setCell_self (self : MessageBoardTable) (cell : ℕ)
    (value : MessageBoardTableViewCell) : (self.setCell cell value).cells cell = value := by
  simp [setCell]

theorem setCell_ne (self : MessageBoardTable) {cell other : ℕ} (h : other ≠ cell)
    (value : MessageBoardTableViewCell) :
    (self.setCell cell value).cells other = self.cells other := by
  simp [setCell, h]

/-- `tableView(_:cellForRowAt:)`. -/
def cellForRowAt (P : Platform) (F : Foundation) (self : MessageBoardTable) (cell row : ℕ) :
    Except Trap MessageBoardTable :=
  match self.localPosts[row]? with
  | none => .error .indexOutOfRange
  | some post =>
      .ok { self.setCell cell ((self.cells cell).setPost P F (some post)) with
        displayed := cell :: self.displayed }

def step (P : Platform) (F : Foundation) (self : MessageBoardTable) :
    TableEvent → Except Trap (MessageBoardTable × List FlagTap)
  | .fetched localPosts => .ok ({ self with localPosts := localPosts }, [])
  | .reloadData => .ok ({ self with numberOfRows := self.localPosts.length, displayed := [] }, [])
  | .cellForRowAt cell row => (self.cellForRowAt P F cell row).map fun self => (self, [])
  | .didEndDisplaying cell =>
      .ok ({ self with displayed := self.displayed.filter (· ≠ cell) }, [])
  | .flagButtonPressed cell =>
      .ok (self.setCell cell (self.cells cell).flagButtonPressed, [⟨cell, self.postID cell⟩])

def Enabled (self : MessageBoardTable) : TableEvent → Prop
  | .fetched _ | .reloadData => True
  | .cellForRowAt cell row => cell ∉ self.displayed ∧ row < self.numberOfRows
  | .didEndDisplaying cell | .flagButtonPressed cell => cell ∈ self.displayed

instance (self : MessageBoardTable) (e : TableEvent) : Decidable (self.Enabled e) := by
  cases e <;> unfold Enabled <;> infer_instance

def machine (P : Platform) (F : Foundation) :
    Machine MessageBoardTable TableEvent FlagTap Trap where
  start self := self = new
  enabled := Enabled
  step := step P F

instance (P : Platform) (F : Foundation) (self : MessageBoardTable) (e : TableEvent) :
    Decidable ((machine P F).enabled self e) :=
  inferInstanceAs (Decidable (self.Enabled e))

/-- The cell of a row is bound to the post of the row. -/
theorem step_cellForRowAt {P : Platform} {F : Foundation} {self self' : MessageBoardTable}
    {cell row : ℕ} {taps : List FlagTap}
    (h : (machine P F).step self (.cellForRowAt cell row) = .ok (self', taps)) :
    taps = [] ∧ ∃ post, self.localPosts[row]? = some post ∧
      self' = { self.setCell cell ((self.cells cell).setPost P F (some post)) with
        displayed := cell :: self.displayed } := by
  simp only [machine, step, cellForRowAt] at h
  cases hp : self.localPosts[row]? with
  | none => rw [hp] at h; cases h
  | some post =>
      rw [hp] at h
      obtain ⟨rfl, rfl⟩ := Prod.mk.inj (Except.ok.inj h)
      exact ⟨rfl, post, rfl, rfl⟩

/-! ### Taps -/

/-- The taps on the flag button of a cell. -/
def presses (taps : List FlagTap) (cell : ℕ) : ℕ := taps.countP fun tap => tap.cell = cell

/-- The taps made while the post with this id was displayed in the tapped cell. -/
def flags (taps : List FlagTap) (post : Option String) : ℕ := taps.countP fun tap => tap.post = post

theorem presses_concat (taps : List FlagTap) (tap : FlagTap) (cell : ℕ) :
    presses (taps ++ [tap]) cell = presses taps cell + if tap.cell = cell then 1 else 0 := by
  simp [presses, List.countP_append, List.countP_singleton]

theorem flags_concat (taps : List FlagTap) (tap : FlagTap) (post : Option String) :
    flags (taps ++ [tap]) post = flags taps post + if tap.post = post then 1 else 0 := by
  simp [flags, List.countP_append, List.countP_singleton]

variable {P : Platform} {F : Foundation} {self self' : MessageBoardTable} {es : List TableEvent}
  {taps : List FlagTap}

/-- **The flag button tells the taps on the cell**, and every cell on screen has a post. -/
theorem flagPostButton_iff (h : (machine P F).Run new es taps self) :
    (∀ cell, (self.cells cell).flagPostButton = true ↔ Odd (presses taps cell)) ∧
      ∀ cell ∈ self.displayed, (self.cells cell).post ≠ none := by
  refine h.history (P := fun _ taps self =>
    (∀ cell, (self.cells cell).flagPostButton = true ↔ Odd (presses taps cell)) ∧
      ∀ cell ∈ self.displayed, (self.cells cell).post ≠ none) ?_ ?_
  · exact ⟨fun _ => by simp [new, MessageBoardTableViewCell.prototype, presses], by simp [new]⟩
  · rintro es taps self e o self' - ⟨hflag, hpost⟩ ⟨hen, hs⟩
    cases e with
    | fetched localPosts =>
        obtain ⟨rfl, rfl⟩ := Prod.mk.inj (Except.ok.inj hs)
        rw [List.append_nil]
        exact ⟨hflag, hpost⟩
    | reloadData =>
        obtain ⟨rfl, rfl⟩ := Prod.mk.inj (Except.ok.inj hs)
        rw [List.append_nil]
        exact ⟨hflag, by simp⟩
    | cellForRowAt cell row =>
        obtain ⟨rfl, post, -, rfl⟩ := step_cellForRowAt hs
        rw [List.append_nil]
        refine ⟨fun other => ?_, fun other hother => ?_⟩
        · by_cases hc : other = cell
          · subst hc
            simp [hflag]
          · simp [setCell_ne _ hc, hflag]
        · by_cases hc : other = cell
          · subst hc
            simp
          · have hother' := (List.mem_cons.mp hother).resolve_left hc
            simpa [setCell_ne _ hc] using hpost other hother'
    | didEndDisplaying cell =>
        obtain ⟨rfl, rfl⟩ := Prod.mk.inj (Except.ok.inj hs)
        rw [List.append_nil]
        exact ⟨hflag, fun other hother => hpost other (List.mem_of_mem_filter hother)⟩
    | flagButtonPressed cell =>
        obtain ⟨rfl, rfl⟩ := Prod.mk.inj (Except.ok.inj hs)
        refine ⟨fun other => ?_, fun other hother => ?_⟩
        · rw [presses_concat]
          by_cases hc : other = cell
          · subst hc
            simp [MessageBoardTableViewCell.flagButtonPressed, Nat.odd_add_one, ← hflag]
          · rw [setCell_ne _ hc, hflag]
            simp [Ne.symm hc]
        · by_cases hc : other = cell
          · subst hc
            rw [setCell_self]
            exact hpost other hother
          · rw [setCell_ne _ hc]
            exact hpost other hother

/-- On every cell on screen the flag button is selected if and only if the post it displays was
flagged an odd number of times. -/
def FlagsStay (taps : List FlagTap) (self : MessageBoardTable) : Prop :=
  ∀ cell ∈ self.displayed, ∀ post ∈ (self.cells cell).post,
    ((self.cells cell).flagPostButton = true ↔ Odd (flags taps post.id))

/-- A cell is bound to a post only if both have been tapped equally often, modulo two; and a cell is
tapped only if no other cell on screen displays its post. -/
def KeepsFlags (taps : List FlagTap) (self : MessageBoardTable) : TableEvent → Prop
  | .cellForRowAt cell row => ∀ post ∈ self.localPosts[row]?,
      (Odd (presses taps cell) ↔ Odd (flags taps post.id))
  | .flagButtonPressed cell => ∀ other ∈ self.displayed, other ≠ cell →
      self.postID other ≠ self.postID cell
  | _ => True

theorem flagsStay_step (h : (machine P F).Run new es taps self) (hstay : FlagsStay taps self)
    {e : TableEvent} {o : List FlagTap} (hs : (machine P F).Step self e o self') :
    FlagsStay (taps ++ o) self' ↔ KeepsFlags taps self e := by
  obtain ⟨hflag, hpost⟩ := flagPostButton_iff h
  obtain ⟨hen, hs⟩ := hs
  cases e with
  | fetched localPosts =>
      obtain ⟨rfl, rfl⟩ := Prod.mk.inj (Except.ok.inj hs)
      rw [List.append_nil]
      exact iff_of_true hstay trivial
  | reloadData =>
      obtain ⟨rfl, rfl⟩ := Prod.mk.inj (Except.ok.inj hs)
      exact iff_of_true (fun cell hcell => by cases hcell) trivial
  | didEndDisplaying cell =>
      obtain ⟨rfl, rfl⟩ := Prod.mk.inj (Except.ok.inj hs)
      rw [List.append_nil]
      exact iff_of_true (fun other hother => hstay other (List.mem_of_mem_filter hother)) trivial
  | cellForRowAt cell row =>
      obtain ⟨rfl, post, hrow, rfl⟩ := step_cellForRowAt hs
      rw [List.append_nil]
      constructor
      · intro hstay' post' hrow'
        obtain rfl := Option.some.inj (hrow.symm.trans hrow')
        have hbound := hstay' cell List.mem_cons_self post (by simp)
        simpa [hflag] using hbound
      · intro hkeeps other hother post' hpost'
        by_cases hc : other = cell
        · subst hc
          obtain rfl : post = post' := by simpa using hpost'
          simpa [hflag] using hkeeps post hrow
        · have hother' := (List.mem_cons.mp hother).resolve_left hc
          simp only [setCell_ne _ hc] at hpost' ⊢
          exact hstay other hother' post' hpost'
  | flagButtonPressed cell =>
      obtain ⟨rfl, rfl⟩ := Prod.mk.inj (Except.ok.inj hs)
      constructor
      · intro hstay' other hother hne heq
        obtain ⟨post, hp⟩ := Option.ne_none_iff_exists'.mp (hpost other hother)
        have hid : self.postID cell = post.id := heq.symm.trans (postID_eq hp)
        have hbefore := hstay other hother post hp
        have hafter := hstay' other hother post (by rw [setCell_ne _ hne]; exact hp)
        rw [setCell_ne _ hne, flags_concat, if_pos hid, hbefore, Nat.odd_add_one] at hafter
        exact iff_not_self hafter
      · intro hkeeps other hother post hp
        rw [flags_concat]
        by_cases hc : other = cell
        · subst hc
          rw [setCell_self] at hp ⊢
          have hp' : (self.cells other).post = some post := hp
          rw [if_pos (postID_eq hp'), Nat.odd_add_one, ← hstay other hother post hp']
          simp [MessageBoardTableViewCell.flagButtonPressed]
        · rw [setCell_ne _ hc] at hp ⊢
          have hid : self.postID cell ≠ post.id := fun he =>
            hkeeps other hother hc ((postID_eq hp).trans he.symm)
          rw [if_neg hid, Nat.add_zero]
          exact hstay other hother post hp

/-- **When flags stay with their post.**  In a run from an empty table, the flag buttons on screen
tell the taps on the posts they belong to all along, if and only if each binding and each tap keeps
them so. -/
theorem flags_stay_iff (h : (machine P F).Run new es taps self) :
    (∀ pre ps t, pre <+: es → (machine P F).Run new pre ps t → FlagsStay ps t) ↔
      ∀ pre e post, es = pre ++ e :: post → ∀ ps t, (machine P F).Run new pre ps t →
        KeepsFlags ps t e :=
  h.always_history_iff (fun _ _ _ _ _ _ hr hstay hs => flagsStay_step hr hstay hs)
    fun _ hcell => by cases hcell

/-! Two posts and one cell. -/

/-- A post without tags and date, so that Foundation is asked for no text. -/
def plainPost (id : String) : Post := Post.init "" "ann" "Hello" "First post" [] "" "" (some id) ""

def plain : Foundation := ⟨fun s => s, fun _ _ => ""⟩

/-- The cell of the first post is flagged, and after a reload it shows the second one. -/
def reused : List TableEvent :=
  [.fetched [plainPost "p", plainPost "q"], .reloadData, .cellForRowAt 0 0, .flagButtonPressed 0,
    .reloadData, .cellForRowAt 0 1]

theorem flag_moves : ∃ taps self, (machine .decimal plain).Run new reused taps self ∧
    0 ∈ self.displayed ∧ (self.cells 0).post = some (plainPost "q") ∧
    (self.cells 0).flagPostButton = true ∧ flags taps (plainPost "q").id = 0 :=
  Machine.Run.exists_of_exec (by decide +kernel) (by decide +kernel)

/-- The two posts are in two cells. -/
def apart : List TableEvent :=
  [.fetched [plainPost "p", plainPost "q"], .reloadData, .cellForRowAt 0 0, .cellForRowAt 1 1,
    .flagButtonPressed 0]

instance (taps : List FlagTap) (self : MessageBoardTable) (e : TableEvent) :
    Decidable (KeepsFlags taps self e) := by
  cases e <;> unfold KeepsFlags <;> infer_instance

theorem flags_stay_sample : ∃ taps self, (machine .decimal plain).Run new apart taps self ∧
    ∀ pre ps t, pre <+: apart → (machine .decimal plain).Run new pre ps t → FlagsStay ps t := by
  obtain ⟨taps, self, hr, -⟩ := Machine.Run.exists_of_exec (M := machine .decimal plain) (s := new)
    (l := apart) (Q := fun _ _ => True) (by decide +kernel) (by decide +kernel)
  refine ⟨taps, self, hr, (flags_stay_iff hr).mpr ?_⟩
  rw [Machine.forall_split_iff (C := fun pre e => ∀ ps t,
    (machine .decimal plain).Run new pre ps t → KeepsFlags ps t e)]
  intro k hk
  refine Machine.Run.forall_of_exec ?_
  revert k
  decide +kernel

end MessageBoardTable
end ZipR
