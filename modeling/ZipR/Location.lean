import ZipR.Machine
import ZipR.DispatchGroup
import ZipR.CreateForm

/-! # Waiting for a location

`Location.getCurrentLocation` starts a request and waits for its report with a dispatch group in a
field that all calls share.

* **Objects.** A `DispatchGroup` is only ever referred to by the field `group`, so it is kept there
  by value; `dropped` are the groups the field has let go of.  The system keeps them alive while
  they are entered, but nothing can leave them any more.
* **Events.** A call of `getCurrentLocation`, the two delegate callbacks, and the block at the head
  of the main queue, in any order.  The block reads the last coordinate the location manager knows,
  if any.
* **Completions.** A block of `notify` is known by the completion it runs; completions are of any
  type `κ`.

`passed_perm`: every completion passed has run, is queued, or waits in a group.  So none runs
twice (`completed_subperm`); which ones never run is `all_completed_iff`. -/

namespace ZipR

open Reactive

structure Location (κ : Type) where
  group : Option (DispatchGroup κ)
  dropped : List (DispatchGroup κ)
  mainQueue : List κ
deriving DecidableEq

namespace Location

variable {κ : Type}

inductive Event (κ : Type) where
  | getCurrentLocation (completion : κ)
  | didUpdateLocations
  | didFailWithError
  | mainQueueBlock (coordinate : Option Coordinate)
deriving DecidableEq

inductive Output (κ : Type) where
  | requestLocation
  | completed (completion : κ) (coordinate : Option Coordinate)
deriving DecidableEq

def init : Location κ := ⟨none, [], []⟩

/-- `self.group = group`. -/
def setGroup (self : Location κ) (group : Option (DispatchGroup κ)) : Location κ :=
  { self with group := group, dropped := self.group.toList ++ self.dropped }

def getCurrentLocation (self : Location κ) (completion : κ) : Location κ :=
  let (group, ready) := DispatchGroup.new.enter.notify completion
  { self.setGroup (some group) with mainQueue := self.mainQueue ++ ready }

/-- `group?.leave()`. -/
def didUpdateLocations (self : Location κ) : Except UnbalancedLeave (Location κ) :=
  match self.group with
  | none => .ok self
  | some group => do
      let (group, ready) ← group.leave
      return { self with group := some group, mainQueue := self.mainQueue ++ ready }

/-- The block passed to `notify`. -/
def mainQueueBlock (self : Location κ) (coordinate : Option Coordinate) :
    Location κ × List (Output κ) :=
  match self.mainQueue with
  | [] => (self, [])
  | completion :: blocks =>
      ({ self.setGroup none with mainQueue := blocks }, [.completed completion coordinate])

def step (self : Location κ) : Event κ → Except UnbalancedLeave (Location κ × List (Output κ))
  | .getCurrentLocation completion => .ok (self.getCurrentLocation completion, [.requestLocation])
  | .didUpdateLocations => self.didUpdateLocations.map fun self => (self, [])
  | .didFailWithError => .ok (self, [])
  | .mainQueueBlock coordinate => .ok (self.mainQueueBlock coordinate)

def Enabled (self : Location κ) : Event κ → Prop
  | .mainQueueBlock _ => self.mainQueue ≠ []
  | _ => True

def machine (κ : Type) : Machine (Location κ) (Event κ) (Output κ) UnbalancedLeave where
  start self := self = init
  enabled := Enabled
  step := step

instance (self : Location κ) (e : Event κ) : Decidable (self.Enabled e) :=
  match e with
  | .mainQueueBlock _ =>
      match hq : self.mainQueue with
      | [] => isFalse fun h => h hq
      | _ :: _ => isTrue fun h => by cases hq.symm.trans h
  | .getCurrentLocation _ | .didUpdateLocations | .didFailWithError => isTrue trivial

instance (self : Location κ) (e : Event κ) : Decidable ((machine κ).enabled self e) :=
  inferInstanceAs (Decidable (self.Enabled e))

/-! ### What a step does -/

/-- A group that one call has entered, with the completion that waits in it. -/
def entered (completion : κ) : DispatchGroup κ := ⟨1, [completion], fun h => absurd h one_ne_zero⟩

/-- All that a step can do. -/
inductive Change (self : Location κ) : Event κ → List (Output κ) → Location κ → Prop
  | call (completion : κ) :
      Change self (.getCurrentLocation completion) [.requestLocation]
        (self.setGroup (some (entered completion)))
  | unheard (hgroup : self.group = none) : Change self .didUpdateLocations [] self
  | left {group group' : DispatchGroup κ} {ready : List κ} (hgroup : self.group = some group)
      (hleave : group.leave = .ok (group', ready)) :
      Change self .didUpdateLocations []
        { self with group := some group', mainQueue := self.mainQueue ++ ready }
  | failed : Change self .didFailWithError [] self
  | block {completion : κ} {blocks : List κ} (coordinate : Option Coordinate)
      (hqueue : self.mainQueue = completion :: blocks) :
      Change self (.mainQueueBlock coordinate) [.completed completion coordinate]
        { self.setGroup none with mainQueue := blocks }

theorem change {self self' : Location κ} {e : Event κ} {o : List (Output κ)}
    (hs : (machine κ).Step self e o self') : Change self e o self' := by
  obtain ⟨hen, hs⟩ := hs
  cases e with
  | getCurrentLocation completion =>
      obtain ⟨rfl, rfl⟩ := Prod.mk.inj (Except.ok.inj hs)
      have hcall : self.getCurrentLocation completion = self.setGroup (some (entered completion)) :=
        congrArg (fun queue => { self.setGroup (some (entered completion)) with mainQueue := queue })
          (List.append_nil self.mainQueue)
      rw [hcall]
      exact .call completion
  | didUpdateLocations =>
      simp only [machine, step, didUpdateLocations] at hs
      cases hg : self.group with
      | none =>
          rw [hg] at hs
          obtain ⟨rfl, rfl⟩ := Prod.mk.inj (Except.ok.inj hs)
          exact .unheard hg
      | some group =>
          cases hl : group.leave with
          | error e => simp only [hg, hl] at hs; cases hs
          | ok r =>
              simp only [hg, hl] at hs
              obtain ⟨rfl, rfl⟩ := Prod.mk.inj (Except.ok.inj hs)
              exact .left hg hl
  | didFailWithError =>
      obtain ⟨rfl, rfl⟩ := Prod.mk.inj (Except.ok.inj hs)
      exact .failed
  | mainQueueBlock coordinate =>
      simp only [machine, step, mainQueueBlock] at hs
      cases hq : self.mainQueue with
      | nil => exact absurd hq hen
      | cons completion blocks =>
          rw [hq] at hs
          obtain ⟨rfl, rfl⟩ := Prod.mk.inj (Except.ok.inj hs)
          exact .block coordinate hq

/-! ### Every completion is somewhere -/

/-- The completions passed to `getCurrentLocation`. -/
def passed (is : List (Event κ)) : List κ :=
  is.filterMap fun
    | .getCurrentLocation completion => some completion
    | _ => none

/-- The completions that have run. -/
def completed (os : List (Output κ)) : List κ :=
  os.filterMap fun
    | .completed completion _ => some completion
    | .requestLocation => none

@[simp] theorem passed_append (is js : List (Event κ)) : passed (is ++ js) = passed is ++ passed js := by
  simp [passed]

@[simp] theorem completed_append (os ps : List (Output κ)) :
    completed (os ++ ps) = completed os ++ completed ps := by
  simp [completed]

/-- The completions that wait in the groups the field has let go of. -/
def lost (self : Location κ) : List κ := self.dropped.flatMap DispatchGroup.blocks

/-- The completions that wait in some group. -/
def waiting (self : Location κ) : List κ :=
  self.group.toList.flatMap DispatchGroup.blocks ++ self.lost

theorem lost_setGroup (self : Location κ) (group : Option (DispatchGroup κ)) :
    (self.setGroup group).lost = self.waiting := by
  simp [lost, waiting, setGroup]

/-- The completions that have not run. -/
def held (self : Location κ) : List κ := self.mainQueue ++ self.waiting

/-- A step passes on the completions it does not run. -/
theorem completions_step {self self' : Location κ} {e : Event κ} {o : List (Output κ)}
    (hs : (machine κ).Step self e o self') :
    (completed o ++ self'.held).Perm (self.held ++ passed [e]) := by
  unfold held
  cases change hs with
  | call completion =>
      rw [waiting, lost_setGroup]
      have hswap : ([completion] ++ self.waiting).Perm (self.waiting ++ [completion]) :=
        List.perm_append_comm
      simpa [completed, passed, setGroup, entered] using hswap.append_left self.mainQueue
  | unheard _ => simp [completed, passed]
  | @left group group' ready hgroup hleave =>
      have hperm := (DispatchGroup.leave_perm hleave).append_right self.lost
      simpa [completed, passed, waiting, hgroup, lost] using hperm.append_left self.mainQueue
  | failed => simp [completed, passed]
  | @block completion blocks coordinate hqueue =>
      have hkept : ({ self.setGroup none with mainQueue := blocks } : Location κ).waiting =
          self.waiting := lost_setGroup self none
      rw [hkept, hqueue]
      simp [completed, passed]

variable {self : Location κ} {is : List (Event κ)} {os : List (Output κ)}

/-- **Every completion is somewhere**: those that were passed are those that have run, are queued
or wait in a group. -/
theorem passed_perm (h : (machine κ).Run init is os self) :
    (completed os ++ self.held).Perm (passed is) := by
  refine h.history (P := fun is os self => (completed os ++ self.held).Perm (passed is))
    (.refl _) ?_
  intro is os self e o self' _ ih hs
  rw [completed_append, passed_append, List.append_assoc]
  calc completed os ++ (completed o ++ self'.held)
      |>.Perm (completed os ++ (self.held ++ passed [e])) :=
        (completions_step hs).append_left _
    _ |>.Perm (passed is ++ passed [e]) := by
        rw [← List.append_assoc]
        exact ih.append_right _

/-- **No completion runs twice.** -/
theorem completed_subperm (h : (machine κ).Run init is os self) :
    (completed os).Subperm (passed is) :=
  (List.sublist_append_left _ _).subperm.trans (passed_perm h).subperm

/-! ### Entered groups -/

/-- Each group has been entered once, and while it is entered a completion waits in it. -/
def Single (self : Location κ) : Prop :=
  ∀ group ∈ self.group.toList ++ self.dropped,
    0 < group.count → group.count = 1 ∧ group.blocks ≠ []

/-- The field refers to a group that is entered. -/
def Pending (self : Location κ) : Prop := ∃ group ∈ self.group, 0 < group.count

instance (self : Location κ) : Decidable self.Pending :=
  match hg : self.group with
  | none => isFalse fun ⟨_, hm, _⟩ => by cases hg.symm.trans hm
  | some group => decidable_of_iff (0 < group.count) (by simp [Pending, hg])

theorem single_init : (init : Location κ).Single := by
  intro group hm
  cases hm

theorem Single.step {self self' : Location κ} (h : self.Single) {e : Event κ}
    {o : List (Output κ)} (hs : (machine κ).Step self e o self') : self'.Single := by
  cases change hs with
  | call completion =>
      intro group hm hpos
      rcases List.mem_cons.mp hm with rfl | hm
      · exact ⟨rfl, List.cons_ne_nil _ _⟩
      · exact h group hm hpos
  | unheard _ => exact h
  | @left group group' ready hgroup hleave =>
      intro g hm hpos
      rcases List.mem_cons.mp hm with rfl | hm
      · have hcount := DispatchGroup.leave_count hleave
        have hone := (h group (by simp [hgroup]) (by omega)).1
        omega
      · exact h g (List.mem_append_right _ hm) hpos
  | failed => exact h
  | block _ _ => exact fun g hm hpos => h g hm hpos

/-- Completions wait in a group exactly while it is entered. -/
theorem blocks_eq_nil_iff {group : DispatchGroup κ}
    (h : 0 < group.count → group.count = 1 ∧ group.blocks ≠ []) :
    group.blocks = [] ↔ ¬ 0 < group.count := by
  refine ⟨fun hnil hpos => (h hpos).2 hnil, fun hpos => group.settled (Nat.eq_zero_of_not_pos hpos)⟩

theorem waiting_eq_nil_iff (h : self.Single) :
    self.waiting = [] ↔ ¬ self.Pending ∧ self.lost = [] := by
  rw [waiting, List.append_eq_nil_iff]
  refine and_congr_left fun _ => ?_
  cases hg : self.group with
  | none => simp [Pending, hg]
  | some group =>
      have hiff := blocks_eq_nil_iff (h group (by simp [hg]))
      simpa [Pending, hg] using hiff

/-- Calls and blocks come only while no group is entered. -/
def Serial (self : Location κ) : Event κ → Prop
  | .getCurrentLocation _ | .mainQueueBlock _ => ¬ self.Pending
  | .didUpdateLocations | .didFailWithError => True

instance (self : Location κ) (e : Event κ) : Decidable (self.Serial e) := by
  cases e <;> unfold Serial <;> infer_instance

/-- A step loses nothing more exactly when it is serial. -/
theorem lost_step_iff {self self' : Location κ} (h : self.Single) {e : Event κ}
    {o : List (Output κ)} (hs : (machine κ).Step self e o self') :
    self'.lost = [] ↔ self.lost = [] ∧ self.Serial e := by
  cases change hs with
  | call completion =>
      rw [lost_setGroup, waiting_eq_nil_iff h]
      exact and_comm
  | unheard _ => exact (and_iff_left trivial).symm
  | left _ _ => exact (and_iff_left trivial).symm
  | failed => exact (and_iff_left trivial).symm
  | @block completion blocks coordinate _ =>
      have hlost : ({ self.setGroup none with mainQueue := blocks } : Location κ).lost =
          self.waiting := lost_setGroup self none
      rw [hlost, waiting_eq_nil_iff h]
      exact and_comm

/-- No completion is lost in a run whose steps are all serial, and one is in any other. -/
theorem lost_eq_nil_iff (h : (machine κ).Run init is os self) :
    self.lost = [] ↔ ((machine κ).restrict Serial).Run init is os self :=
  h.lasting_iff (fun _ _ _ _ hi hs => hi.step hs) (fun _ _ _ _ hi hs => lost_step_iff hi hs)
    single_init rfl

/-! ### Which completions run -/

/-- The events since the last call of `getCurrentLocation`, if there was one. -/
def sinceLastCall (is : List (Event κ)) : Option (List (Event κ)) :=
  is.foldl (fun events e =>
    match e with
    | .getCurrentLocation _ => some []
    | e => events.map (· ++ [e])) none

/-- Since the last call the location manager has reported an update. -/
def Updated (is : List (Event κ)) : Prop :=
  ∀ events ∈ sinceLastCall is, .didUpdateLocations ∈ events

/-- Since the last call the location manager has reported an update or a failure. -/
def Reported (is : List (Event κ)) : Prop :=
  ∀ events ∈ sinceLastCall is, .didUpdateLocations ∈ events ∨ .didFailWithError ∈ events

instance [DecidableEq κ] (is : List (Event κ)) : Decidable (Updated is) :=
  inferInstanceAs (Decidable (∀ events ∈ sinceLastCall is, Event.didUpdateLocations ∈ events))

instance [DecidableEq κ] (is : List (Event κ)) : Decidable (Reported is) :=
  inferInstanceAs (Decidable (∀ events ∈ sinceLastCall is,
    Event.didUpdateLocations ∈ events ∨ Event.didFailWithError ∈ events))

theorem updated_snoc (is : List (Event κ)) (e : Event κ) :
    Updated (is ++ [e]) ↔
      match e with
      | .getCurrentLocation _ => False
      | .didUpdateLocations => True
      | _ => Updated is := by
  unfold Updated sinceLastCall
  rw [List.foldl_concat]
  cases e <;> simp

/-- In a serial run the field refers to an entered group until an update is reported. -/
theorem pending_iff (h : ((machine κ).restrict Serial).Run init is os self) :
    self.Pending ↔ ¬ Updated is := by
  refine h.history (P := fun is _ self => self.Pending ↔ ¬ Updated is) ?_ ?_
  · simp [Pending, init, Updated, sinceLastCall]
  · intro is os self e o self' hr ih hs
    obtain ⟨hs, hc⟩ := Machine.restrict_step.mp hs
    rw [updated_snoc]
    cases change hs with
    | call completion => simp [Pending, setGroup, entered]
    | unheard hgroup => simp [Pending, hgroup]
    | @left group group' ready hgroup hleave =>
        have hsingle := hr.of_restrict.invariant (fun _ _ _ _ hi hs => hi.step hs) single_init
        have hone := hsingle group (by simp [hgroup])
        have hcount := DispatchGroup.leave_count hleave
        simp [Pending]
        omega
    | failed => exact ih
    | block coordinate hqueue =>
        refine iff_of_false ?_ (ih.not.mp hc)
        simp [Pending, setGroup]

/-- Calls and blocks set the field. -/
def Event.SetsGroup : Event κ → Prop
  | .getCurrentLocation _ | .mainQueueBlock _ => True
  | .didUpdateLocations | .didFailWithError => False

/-- Each call and each block comes when an update has been reported since the last call. -/
def InTurn (is : List (Event κ)) : Prop :=
  ∀ pre e post, is = pre ++ e :: post → e.SetsGroup → Updated pre

/-- The serial runs are those in which calls and blocks come in turn. -/
theorem serial_iff (h : (machine κ).Run init is os self) :
    ((machine κ).restrict Serial).Run init is os self ↔ InTurn is := by
  induction h with
  | refl => exact iff_of_true .refl fun pre e post hsplit => by simp at hsplit
  | @snoc s s' is os o e hr hs ih =>
      have hsplit : InTurn (is ++ [e]) ↔ InTurn is ∧ (e.SetsGroup → Updated is) :=
        Machine.forall_split_concat (Q := fun pre (e : Event κ) => e.SetsGroup → Updated pre)
      rw [hr.restrict_snoc_iff hs, hsplit, ih]
      refine and_congr_right fun hturn => ?_
      have hpending := pending_iff (ih.mpr hturn)
      cases e with
      | getCurrentLocation completion => simp [Serial, Event.SetsGroup, hpending]
      | mainQueueBlock coordinate => simp [Serial, Event.SetsGroup, hpending]
      | didUpdateLocations => simp [Serial, Event.SetsGroup]
      | didFailWithError => simp [Serial, Event.SetsGroup]

/-- **Which requests are answered.**  Once the main queue is drained, every completion ever passed
has run exactly once if and only if the location manager has reported an update since the last call,
at the end and whenever a call or a block came. -/
theorem all_completed_iff (h : (machine κ).Run init is os self) (hqueue : self.mainQueue = []) :
    (completed os).Perm (passed is) ↔ InTurn is ∧ Updated is := by
  have hsingle : self.Single := h.invariant (fun _ _ _ _ hi hs => hi.step hs) single_init
  have hperm := passed_perm h
  rw [held, hqueue, List.nil_append] at hperm
  have hwaiting : (completed os).Perm (passed is) ↔ self.waiting = [] := by
    constructor
    · intro hall
      have hlength := hperm.length_eq.trans hall.length_eq.symm
      rw [List.length_append] at hlength
      exact List.length_eq_zero_iff.mp (by omega)
    · intro hnil
      simpa [hnil] using hperm
  rw [hwaiting, waiting_eq_nil_iff hsingle, and_comm, lost_eq_nil_iff h, ← serial_iff h]
  refine and_congr_right fun hr => ?_
  rw [pending_iff hr, not_not]

/-! Requests by number. -/

/-- The run ends with the queue drained and a report since the last call, but with a completion
that has not run. -/
def Loses (is : List (Event ℕ)) : Prop := ∃ os self, (machine ℕ).Run init is os self ∧
  self.mainQueue = [] ∧ Reported is ∧ ¬ (completed os).Perm (passed is)

/-- The failure callback does not leave the group. -/
def failing : List (Event ℕ) := [.getCurrentLocation 0, .didFailWithError]

/-- The second call overwrites the group of the first. -/
def overlapping : List (Event ℕ) :=
  [.getCurrentLocation 0, .getCurrentLocation 1, .didUpdateLocations, .mainQueueBlock none]

/-- The block of the first call clears the group of the second. -/
def clearing : List (Event ℕ) :=
  [.getCurrentLocation 0, .didUpdateLocations, .getCurrentLocation 1, .mainQueueBlock none,
    .didUpdateLocations]

theorem requests_lost : Loses failing ∧ Loses overlapping ∧ Loses clearing := by
  refine ⟨?_, ?_, ?_⟩ <;>
    exact Machine.Run.exists_of_exec (by decide +kernel) (by decide +kernel)

/-- One request after the other. -/
def inTurn : List (Event ℕ) :=
  [.getCurrentLocation 0, .didFailWithError, .didUpdateLocations, .mainQueueBlock none,
    .getCurrentLocation 1, .didUpdateLocations, .mainQueueBlock none]

theorem all_completed_sample : ∃ os self, (machine ℕ).Run init inTurn os self ∧
    (completed os).Perm (passed inTurn) := by
  obtain ⟨os, self, hr, hqueue⟩ := Machine.Run.exists_of_exec (M := (machine ℕ).restrict Serial)
    (s := init) (l := inTurn) (Q := fun self _ => self.mainQueue = []) (by decide +kernel)
    (by decide +kernel)
  exact ⟨os, self, hr.of_restrict, (all_completed_iff hr.of_restrict hqueue).mpr
    ⟨(serial_iff hr.of_restrict).mp hr, by decide +kernel⟩⟩

end Location
end ZipR
