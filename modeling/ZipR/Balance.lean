import Mathlib.Data.List.Infix
import ZipR.Location

/-! # Entering and leaving

`didUpdateLocations` leaves whatever group the shared field refers to when the update arrives.

* **Answered.** A group is entered once, so the update after its call brings it to zero.  The field
  keeps it until the next call, or until a block of the main queue clears the field.
* **Requests.** `OneUpdatePerRequest`: no update comes that no `requestLocation` asked for.
  `OneAtATime`: each call waits for the update of the one before.

`balanced_iff` says which lists of events are handled without a `leave` at zero. -/

namespace ZipR
namespace Location

open Reactive

variable {κ : Type}

/-! ### Which group the field refers to -/

/-- The events since the call that gave the field its group, while the field has one. -/
def sinceEntered (is : List (Event κ)) : Option (List (Event κ)) :=
  is.foldl (fun events e =>
    match e with
    | .getCurrentLocation _ => some []
    | .mainQueueBlock _ => none
    | e => events.map (· ++ [e])) none

/-- The group the field refers to has had its update. -/
def Answered (is : List (Event κ)) : Prop :=
  ∃ events ∈ sinceEntered is, .didUpdateLocations ∈ events

theorem sinceEntered_snoc (is : List (Event κ)) (e : Event κ) :
    sinceEntered (is ++ [e]) =
      match e with
      | .getCurrentLocation _ => some []
      | .mainQueueBlock _ => none
      | e => (sinceEntered is).map (· ++ [e]) := by
  unfold sinceEntered
  rw [List.foldl_concat]

/-- The field refers to a group with this count. -/
def Counts (self : Location κ) (n : ℕ) : Prop := ∃ group ∈ self.group, group.count = n

/-- The events say whether the field refers to a group, and whether that group is at zero. -/
theorem counts_zero_iff {self : Location κ} {is : List (Event κ)} {os : List (Output κ)}
    (h : (machine κ).Run init is os self) :
    self.group.isSome = (sinceEntered is).isSome ∧ (self.Counts 0 ↔ Answered is) := by
  refine h.history (P := fun is _ self =>
    self.group.isSome = (sinceEntered is).isSome ∧ (self.Counts 0 ↔ Answered is)) ?_ ?_
  · simp [Counts, init, Answered, sinceEntered]
  · rintro is os self e o self' hr ⟨hsome, hcount⟩ hs
    unfold Answered
    rw [sinceEntered_snoc]
    cases change hs with
    | call completion => simp [Counts, setGroup, entered]
    | unheard hgroup =>
        have hnone : sinceEntered is = none := by simpa [hgroup] using hsome.symm
        simp [Counts, hgroup, hnone]
    | @left group group' ready hgroup hleave =>
        have hsingle := hr.invariant (fun _ _ _ _ hi hs => hi.step hs) single_init
        have hone := hsingle group (by simp [hgroup])
        have hleft := DispatchGroup.leave_count hleave
        obtain ⟨events, hevents⟩ := Option.isSome_iff_exists.mp (hsome.symm.trans (by simp [hgroup]))
        have hzero : group'.count = 0 := by omega
        simp [Counts, hevents, hzero]
    | failed => simpa [Answered] using And.intro hsome hcount
    | block coordinate hqueue => simp [Counts, setGroup]

/-! ### Leaves at zero -/

/-- A step traps only on an update for a group that has had its update. -/
theorem step_ok_iff {self : Location κ} {is : List (Event κ)} {os : List (Output κ)}
    (h : (machine κ).Run init is os self) (e : Event κ) :
    (∃ r, (machine κ).step self e = .ok r) ↔ (e = .didUpdateLocations → ¬ Answered is) := by
  cases e with
  | getCurrentLocation completion => simp [machine, step]
  | didFailWithError => simp [machine, step]
  | mainQueueBlock coordinate => simp [machine, step]
  | didUpdateLocations =>
      rw [← (counts_zero_iff h).2]
      simp only [machine, step, didUpdateLocations, Counts]
      cases hg : self.group with
      | none => simp [Except.map]
      | some group =>
          have herror := DispatchGroup.leave_error_iff (g := group)
          cases hl : group.leave with
          | error e =>
              have hzero : group.count = 0 := herror.mp hl
              simp [hl, hzero, bind, Except.bind, Except.map]
          | ok r =>
              have hzero : group.count ≠ 0 := fun hzero => by simp [hl] at herror; omega
              simp [hl, hzero, bind, Except.bind, Except.map, pure, Except.pure]

/-! ### Requests and updates -/

/-- The calls of `requestLocation`. -/
def requests (is : List (Event κ)) : ℕ := (passed is).length

/-- The calls of `didUpdateLocations`. -/
def updates (is : List (Event κ)) : ℕ :=
  is.countP fun
    | .didUpdateLocations => true
    | _ => false

theorem requests_snoc (is : List (Event κ)) (e : Event κ) :
    requests (is ++ [e]) = requests is +
      match e with
      | .getCurrentLocation _ => 1
      | _ => 0 := by
  rw [requests, passed_append, List.length_append]
  cases e <;> rfl

theorem updates_snoc (is : List (Event κ)) (e : Event κ) :
    updates (is ++ [e]) = updates is +
      match e with
      | .didUpdateLocations => 1
      | _ => 0 := by
  rw [updates, List.countP_append]
  cases e <;> rfl

/-- At most one update comes per request. -/
def OneUpdatePerRequest (is : List (Event κ)) : Prop := ∀ pre ∈ is.inits, updates pre ≤ requests pre

/-- A location is requested only once all requests so far have had their update. -/
def OneAtATime (is : List (Event κ)) : Prop :=
  ∀ pre completion post, is = pre ++ .getCurrentLocation completion :: post →
    updates pre = requests pre

instance (is : List (Event κ)) : Decidable (OneUpdatePerRequest is) :=
  inferInstanceAs (Decidable (∀ pre ∈ is.inits, updates pre ≤ requests pre))

theorem OneUpdatePerRequest.of_prefix {is pre : List (Event κ)} (h : OneUpdatePerRequest is)
    (hpre : pre <+: is) : OneUpdatePerRequest pre := by
  intro p hp
  have hp' : p <+: pre := (List.mem_inits _ _).mp hp
  exact h p ((List.mem_inits _ _).mpr (hp'.trans hpre))

theorem OneAtATime.of_prefix {is pre : List (Event κ)} (h : OneAtATime is) (hpre : pre <+: is) :
    OneAtATime pre := by
  obtain ⟨post, rfl⟩ := hpre
  rintro p completion q rfl
  exact h p completion (q ++ post) (by simp)

/-- With one request at a time, a group that has had its update leaves no request open. -/
theorem updates_eq_of_answered {is : List (Event κ)} (hone : OneUpdatePerRequest is)
    (hserial : OneAtATime is) :
    requests is ≤ updates is + 1 ∧ (Answered is → updates is = requests is) := by
  induction is using List.reverseRecOn with
  | nil => simp [requests, updates, passed]
  | append_singleton is e ih =>
      have hprefix : is <+: is ++ [e] := List.prefix_append _ _
      obtain ⟨hle, hanswered⟩ := ih (hone.of_prefix hprefix) (hserial.of_prefix hprefix)
      have hmost := hone (is ++ [e]) ((List.mem_inits _ _).mpr (List.prefix_refl _))
      unfold Answered at hanswered ⊢
      rw [sinceEntered_snoc]
      cases e with
      | getCurrentLocation completion =>
          have heven := hserial is completion [] rfl
          simp only [requests_snoc, updates_snoc]
          simp
          omega
      | didUpdateLocations =>
          simp only [requests_snoc, updates_snoc] at hmost ⊢
          omega
      | didFailWithError => simpa [requests_snoc, updates_snoc] using And.intro hle hanswered
      | mainQueueBlock coordinate => simpa [requests_snoc, updates_snoc] using hle

/-- **No `leave` at zero.**  The events are handled without a trap if and only if each update
comes before the group of the field has had one. -/
theorem balanced_iff {is : List (Event κ)}
    (hen : (machine κ).Along (machine κ).enabled init is) :
    (∃ r, (machine κ).exec init is = .ok r) ↔
      ∀ pre post, is = pre ++ .didUpdateLocations :: post → ¬ Answered pre := by
  rw [Machine.exec_ok_iff (fun is os s e hr _ => step_ok_iff hr e) hen]
  constructor
  · intro hall pre post he
    exact hall pre _ post he rfl
  · rintro hall pre e post he rfl
    exact hall pre post he

/-- Requests that wait for each other never trap. -/
theorem balanced_of_oneAtATime {is : List (Event κ)}
    (hen : (machine κ).Along (machine κ).enabled init is) (hone : OneUpdatePerRequest is)
    (hserial : OneAtATime is) : ∃ r, (machine κ).exec init is = .ok r := by
  refine (balanced_iff hen).mpr ?_
  rintro pre post rfl hanswered
  have hpre : pre <+: pre ++ .didUpdateLocations :: post := List.prefix_append _ _
  have hlast : pre ++ [.didUpdateLocations] <+: pre ++ .didUpdateLocations :: post :=
    ⟨post, by simp⟩
  have heven := (updates_eq_of_answered (hone.of_prefix hpre) (hserial.of_prefix hpre)).2 hanswered
  have hmost := hone _ ((List.mem_inits _ _).mpr hlast)
  simp only [requests_snoc, updates_snoc] at hmost
  omega

/-! Requests by number. -/

/-- Both updates arrive for the group of the second call. -/
def doubled : List (Event ℕ) :=
  [.getCurrentLocation 0, .getCurrentLocation 1, .didUpdateLocations, .didUpdateLocations]

theorem doubled_traps : (machine ℕ).Along (machine ℕ).enabled init doubled ∧
    OneUpdatePerRequest doubled ∧
    (machine ℕ).exec init doubled = .error .unbalancedLeave := by
  refine ⟨?_, ?_, ?_⟩ <;> decide +kernel

theorem balanced_sample : (∃ r, (machine ℕ).exec init overlapping = .ok r) ∧
    ∀ pre post, overlapping = pre ++ .didUpdateLocations :: post → ¬ Answered pre := by
  have hok : ∃ r, (machine ℕ).exec init overlapping = .ok r := ⟨_, rfl⟩
  exact ⟨hok, (balanced_iff (by decide +kernel)).mp hok⟩

end Location
end ZipR
