import Mathlib.Algebra.Ring.Parity
import Mathlib.Data.List.Induction
import Mathlib.Data.List.Nodup

/-! # Toggled lists

A list used as a set: `toggle` takes an element out where it is in, and appends it where it is not.

* `mem_toggles_iff`: after any toggles of an empty list, what is in was toggled an odd number of
  times.
* `nodup_flatten_toggles_iff`: lists toggled apart from each other, put together, repeat no element
  if and only if no element is in two of them. -/

namespace Toggle

variable {α : Type} [DecidableEq α] {l : List α} {a b : α}

/-- Take the element out, or append it. -/
def toggle (l : List α) (a : α) : List α := if a ∈ l then l.erase a else l ++ [a]

theorem nodup_toggle (h : l.Nodup) (a : α) : (toggle l a).Nodup := by
  unfold toggle
  split_ifs with ha
  · exact h.erase a
  · rw [List.nodup_append_comm]
    exact List.nodup_cons.mpr ⟨ha, h⟩

theorem mem_toggle (h : l.Nodup) : b ∈ toggle l a ↔ (b ∈ l ↔ b ≠ a) := by
  unfold toggle
  split_ifs with ha
  · rw [h.mem_erase_iff]
    by_cases hb : b = a
    · subst hb
      simp [ha]
    · simp [hb]
  · rw [List.mem_append, List.mem_singleton]
    by_cases hb : b = a
    · subst hb
      simp [ha]
    · simp [hb]

/-- The elements toggled one after the other, from an empty list on. -/
def toggles (as : List α) : List α := as.foldl toggle []

theorem toggles_concat (as : List α) (a : α) : toggles (as ++ [a]) = toggle (toggles as) a :=
  List.foldl_concat ..

theorem nodup_toggles (as : List α) : (toggles as).Nodup := by
  induction as using List.reverseRecOn with
  | nil => exact List.nodup_nil
  | append_singleton as a ih =>
      rw [toggles_concat]
      exact nodup_toggle ih a

/-- **What is in was toggled an odd number of times.** -/
theorem mem_toggles_iff {as : List α} : b ∈ toggles as ↔ Odd (as.count b) := by
  induction as using List.reverseRecOn with
  | nil => simp [toggles]
  | append_singleton as a ih =>
      rw [toggles_concat, mem_toggle (nodup_toggles as), ih, List.count_append]
      by_cases hb : b = a
      · subst hb
        simp [Nat.odd_add_one]
      · simp [hb, Ne.symm hb]

/-- Several toggled lists in a row repeat an element if and only if it is in two of them. -/
theorem nodup_flatten_toggles_iff {lists : List (List α)} :
    (lists.map toggles).flatten.Nodup ↔
      lists.Pairwise fun as bs => ∀ a, ¬ (Odd (as.count a) ∧ Odd (bs.count a)) := by
  have hall : ∀ l ∈ lists.map toggles, l.Nodup := by
    intro l hl
    obtain ⟨as, -, rfl⟩ := List.mem_map.mp hl
    exact nodup_toggles as
  -- each list alone repeats nothing
  rw [List.nodup_flatten, and_iff_right hall, List.pairwise_map]
  refine List.Pairwise.iff fun as bs => forall_congr' fun a => ?_
  rw [mem_toggles_iff, mem_toggles_iff, not_and]

end Toggle
