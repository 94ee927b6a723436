import Mathlib.Data.List.Infix
import Mathlib.Data.List.Induction
import Mathlib.Tactic.Common

/-! # Views of a tree and patches over them

What a reader of a tree with values at its leaves can tell, and what a set of overwrites that have
not reached the tree does to it, both told by paths alone.

* **Views.** A `View` says which value is at the end of each path.  `overwrite p c v` puts the view
  `c` at `p`; if it holds anything, no path above `p` ends in a value any more.
* **Patches.** A `Patch` says at some paths what the view will be there.  Over a view it wins where
  it speaks (`Patch.overlay`).  `Patch.write` is the patch after one more overwrite, `Patch.ofWrites`
  the patch of a sequence of them.
* `overlay_ofWrites`: over a view without values above the written paths, the patch of a sequence of
  overwrites is these overwrites one after the other.
* `ofWrites_shadowed`, `ofWrites_alone`: when the patch without one of the overwrites is the same
  patch, and when it is the patch with one cone of paths taken out. -/

namespace Patches

open Classical

variable {κ σ : Type}

theorem diverge_of_ne {r a b : List κ} {k l : κ} (h : k ≠ l) (ha : r ++ [k] <+: a)
    (hb : r ++ [l] <+: b) : ¬ a <+: b ∧ ¬ b <+: a := by
  obtain ⟨s, rfl⟩ := ha
  obtain ⟨t, rfl⟩ := hb
  simp [List.append_assoc, h, h.symm]

/-- The value at the end of each path. -/
abbrev View (κ σ : Type) := List κ → Option σ

namespace View

def Blank (v : View κ σ) : Prop := ∀ p, v p = none

/-- The view from the end of a path. -/
def below (v : View κ σ) (p : List κ) : View κ σ := fun q => v (p ++ q)

/-- Put a view at a path. -/
noncomputable def overwrite (p : List κ) (c v : View κ σ) : View κ σ := fun q =>
  if p <+: q then c (q.drop p.length)
  else if q <+: p ∧ ¬ c.Blank then none
  else v q

section overwrite
variable (p q : List κ) (c v : View κ σ)

@[simp] theorem overwrite_append : overwrite p c v (p ++ q) = c q := by
  simp [overwrite]

variable {p q}

theorem overwrite_of_diverge (h : ¬ p <+: q) (h' : ¬ q <+: p) : overwrite p c v q = v q := by
  simp [overwrite, h, h']

theorem overwrite_above (k : κ) (r : List κ) :
    overwrite (q ++ k :: r) c v q = if c.Blank then v q else none := by
  have hnot : ¬ (q ++ k :: r) <+: q := fun h => by
    have hle := h.length_le
    rw [List.length_append, List.length_cons] at hle
    omega
  by_cases hc : c.Blank <;> simp [overwrite, hnot, hc]

end overwrite

/-- The view after overwrites, the oldest first. -/
noncomputable def replay (ws : List (List κ × View κ σ)) (v : View κ σ) : View κ σ :=
  ws.foldl (fun v w => overwrite w.1 w.2 v) v

@[simp] theorem replay_nil (v : View κ σ) : replay [] v = v := rfl

@[simp] theorem replay_snoc (ws : List (List κ × View κ σ)) (w : List κ × View κ σ)
    (v : View κ σ) : replay (ws ++ [w]) v = overwrite w.1 w.2 (replay ws v) := by
  simp [replay]

/-- No path strictly above this one ends in a value. -/
def ClearAbove (v : View κ σ) (p : List κ) : Prop := ∀ q, q <+: p → q ≠ p → v q = none

end View

/-! ### Patches -/

/-- What the view will be at some paths. -/
abbrev Patch (κ σ : Type) := List κ → Option (Option σ)

namespace Patch

def empty : Patch κ σ := fun _ => none

def overlay (π : Patch κ σ) (v : View κ σ) : View κ σ := fun q => (π q).getD (v q)

def below (π : Patch κ σ) (p : List κ) : Patch κ σ := fun q => π (p ++ q)

/-- The patch without what it says from a path on. -/
noncomputable def erase (p : List κ) (π : Patch κ σ) : Patch κ σ := fun q =>
  if p <+: q then none else π q

noncomputable def write (p : List κ) (c : View κ σ) (π : Patch κ σ) : Patch κ σ := fun q =>
  if p <+: q then some (c (q.drop p.length))
  else if q <+: p ∧ ¬ c.Blank then (π q).map fun _ => none
  else π q

/-- The patch of overwrites, the oldest first. -/
noncomputable def ofWrites (ws : List (List κ × View κ σ)) : Patch κ σ :=
  ws.foldl (fun π w => write w.1 w.2 π) empty

section write
variable (p q : List κ) (c : View κ σ) (π : Patch κ σ)

@[simp] theorem write_append : write p c π (p ++ q) = some (c q) := by
  simp [write]

variable {p q}

theorem write_of_diverge (h : ¬ p <+: q) (h' : ¬ q <+: p) : write p c π q = π q := by
  simp [write, h, h']

theorem write_above (k : κ) (r : List κ) :
    write (q ++ k :: r) c π q = if c.Blank then π q else (π q).map fun _ => none := by
  have hnot : ¬ (q ++ k :: r) <+: q := fun h => by
    have hle := h.length_le
    rw [List.length_append, List.length_cons] at hle
    omega
  by_cases hc : c.Blank <;> simp [write, hnot, hc]

theorem below_write : (write (p ++ q) c π).below p = write q c (π.below p) := by
  funext r
  simp only [below, write, List.prefix_append_right_inj, List.length_append]
  rw [← List.drop_drop, List.drop_left]

/-- Where a patch speaks everywhere, a write is an overwrite of what it says. -/
theorem write_some (v : View κ σ) :
    write p c (fun q => some (v q)) = fun q => some (View.overwrite p c v q) := by
  funext q
  rw [write, View.overwrite]
  split_ifs <;> rfl

end write

@[simp] theorem ofWrites_nil : ofWrites ([] : List (List κ × View κ σ)) = empty := rfl

@[simp] theorem ofWrites_snoc (ws : List (List κ × View κ σ)) (w : List κ × View κ σ) :
    ofWrites (ws ++ [w]) = write w.1 w.2 (ofWrites ws) := by
  simp [ofWrites]

theorem ofWrites_append (ws us : List (List κ × View κ σ)) :
    ofWrites (ws ++ us) = us.foldl (fun π w => write w.1 w.2 π) (ofWrites ws) := by
  simp [ofWrites]

/-- A patch speaks exactly at and below the written paths. -/
theorem ofWrites_eq_none_iff {ws : List (List κ × View κ σ)} {q : List κ} :
    ofWrites ws q = none ↔ ∀ w ∈ ws, ¬ w.1 <+: q := by
  induction ws using List.reverseRecOn with
  | nil => simp [empty]
  | append_singleton ws w ih =>
      rw [ofWrites_snoc, write]
      by_cases hp : w.1 <+: q
      · simp only [hp, if_true, reduceCtorEq, false_iff, not_forall, not_not]
        exact ⟨w, by simp, hp⟩
      · have hiff : (∀ u ∈ ws ++ [w], ¬ u.1 <+: q) ↔ ∀ u ∈ ws, ¬ u.1 <+: q := by
          simp [or_imp, forall_and, hp]
        rw [if_neg hp, hiff, ← ih]
        split <;> simp

/-- Of overwrites of which none is above another, each one is seen. -/
theorem ofWrites_of_mem {ws : List (List κ × View κ σ)} {w : List κ × View κ σ}
    (hpw : ws.Pairwise fun u w => ¬ u.1 <+: w.1 ∧ ¬ w.1 <+: u.1) (h : w ∈ ws) (q : List κ) :
    ofWrites ws (w.1 ++ q) = some (w.2 q) := by
  induction ws using List.reverseRecOn with
  | nil => cases h
  | append_singleton ws u ih =>
      obtain ⟨hws, -, hu⟩ := List.pairwise_append.mp hpw
      rw [ofWrites_snoc]
      rcases List.mem_append.mp h with h | h
      · obtain ⟨hwu, huw⟩ := hu w h u (List.mem_singleton_self u)
        have hnot : ¬ u.1 <+: w.1 ++ q := fun hle =>
          (List.prefix_or_prefix_of_prefix hle (List.prefix_append w.1 q)).elim huw hwu
        have hnot' : ¬ w.1 ++ q <+: u.1 := fun hle => hwu ((List.prefix_append w.1 q).trans hle)
        rw [write_of_diverge _ _ hnot hnot', ih hws h]
      · obtain rfl := List.mem_singleton.mp h
        rw [write_append]

/-- No path above what the patch says, and not said by it, ends in a value. -/
def Clear (π : Patch κ σ) (v : View κ σ) : Prop := ∀ p q, p <+: q → π p = none → π q ≠ none →
  v p = none

theorem clear_ofWrites {ws : List (List κ × View κ σ)} {v : View κ σ}
    (h : ∀ w ∈ ws, v.ClearAbove w.1) : Clear (ofWrites ws) v := by
  intro p q hpq hp hq
  rw [Ne, ofWrites_eq_none_iff] at hq
  push Not at hq
  obtain ⟨w, hw, hwq⟩ := hq
  have hwp := ofWrites_eq_none_iff.mp hp w hw
  exact h w hw p ((List.prefix_or_prefix_of_prefix hpq hwq).resolve_right hwp) fun he =>
    hwp (he ▸ List.prefix_refl _)

/-! ### Overwrites one after the other -/

theorem overlay_write {p : List κ} {c : View κ σ} {π : Patch κ σ} {v : View κ σ}
    (h : v.ClearAbove p) : (write p c π).overlay v = View.overwrite p c (π.overlay v) := by
  funext q
  by_cases hp : p <+: q
  · obtain ⟨r, rfl⟩ := hp
    simp [overlay]
  · by_cases hq : q <+: p
    · obtain ⟨r, rfl⟩ := hq
      cases r with
      | nil => exact absurd (by simp) hp
      | cons k r =>
          rw [View.overwrite_above, overlay, write_above]
          split_ifs with hc
          · rfl
          · cases hπ : π q with
            | none => exact h q (List.prefix_append _ _) (by simp)
            | some x => rfl
    · rw [View.overwrite_of_diverge c _ hp hq, overlay, write_of_diverge c π hp hq]
      rfl

/-- **Over a view that is clear above the written paths, the patch of overwrites is these
overwrites.** -/
theorem overlay_ofWrites {ws : List (List κ × View κ σ)} {v : View κ σ}
    (h : ∀ w ∈ ws, v.ClearAbove w.1) : (ofWrites ws).overlay v = v.replay ws := by
  induction ws using List.reverseRecOn with
  | nil => rfl
  | append_singleton ws w ih =>
      rw [ofWrites_snoc, View.replay_snoc, overlay_write (h w (by simp)),
        ih fun u hu => h u (List.mem_append_left _ hu)]

theorem overlay_below (π : Patch κ σ) (v : View κ σ) (p : List κ) :
    (π.below p).overlay (v.below p) = (π.overlay v).below p := rfl

/-! ### Taking out one overwrite -/

/-- The patches say the same except from the end of the path on. -/
def AgreeOff (p : List κ) (π ρ : Patch κ σ) : Prop := ∀ q, ¬ p <+: q → π q = ρ q

/-- Overwrites bring patches together at the paths they cover, and keep them so elsewhere. -/
theorem foldl_write_congr {π ρ : Patch κ σ} {ws : List (List κ × View κ σ)} {q : List κ}
    (h : π q = ρ q ∨ ∃ w ∈ ws, w.1 <+: q) :
    ws.foldl (fun π w => write w.1 w.2 π) π q = ws.foldl (fun π w => write w.1 w.2 π) ρ q := by
  induction ws generalizing π ρ with
  | nil => simpa using h
  | cons w ws ih =>
      refine ih ?_
      by_cases hw : w.1 <+: q
      · exact .inl (by simp only [write, hw, if_true])
      · rcases h with h | ⟨u, hu, huq⟩
        · exact .inl (by simp only [write, h])
        · rcases List.mem_cons.mp hu with rfl | hu
          · exact absurd huq hw
          · exact .inr ⟨u, hu, huq⟩

theorem AgreeOff.foldl {p : List κ} {π ρ : Patch κ σ} (h : AgreeOff p π ρ)
    (ws : List (List κ × View κ σ)) : AgreeOff p
      (ws.foldl (fun π w => Patch.write w.1 w.2 π) π)
      (ws.foldl (fun π w => Patch.write w.1 w.2 π) ρ) :=
  fun q hq => foldl_write_congr (.inl (h q hq))

/-- An overwrite at or above the path hides the difference. -/
theorem AgreeOff.write_eq {p q : List κ} {π ρ : Patch κ σ} (h : AgreeOff p π ρ) (hq : q <+: p)
    (c : View κ σ) : Patch.write q c π = Patch.write q c ρ := by
  funext r
  by_cases hr : q <+: r
  · simp [Patch.write, hr]
  · simp only [Patch.write, hr, if_false, h r fun hp => hr (hq.trans hp)]

/-- What one overwrite changes in a patch that does not speak above its path. -/
theorem agreeOff_write {p : List κ} {π : Patch κ σ} (h : ∀ q, q <+: p → q ≠ p → π q = none)
    (c : View κ σ) : AgreeOff p (write p c π) π := by
  intro q hq
  simp only [write, hq, if_false]
  split_ifs with hp
  · rw [h q hp.1 fun he => hq (he ▸ List.prefix_refl _), Option.map_none]
  · rfl

variable {pre post : List (List κ × View κ σ)} {w : List κ × View κ σ}

theorem agreeOff_ofWrites (h : ∀ u ∈ pre, ¬ (u.1 <+: w.1 ∧ u.1 ≠ w.1))
    (post : List (List κ × View κ σ)) :
    AgreeOff w.1 (ofWrites (pre ++ w :: post)) (ofWrites (pre ++ post)) := by
  rw [ofWrites_append, ofWrites_append, List.foldl_cons]
  refine (agreeOff_write (fun q hq hne => ?_) w.2).foldl post
  refine ofWrites_eq_none_iff.mpr fun u hu hup => h u hu ⟨hup.trans hq, fun he => hne ?_⟩
  exact hq.eq_of_length_le (he ▸ hup.length_le)

/-- **A shadowed overwrite leaves no trace**: a later one is at or above its path. -/
theorem ofWrites_shadowed (h : ∀ u ∈ pre, ¬ (u.1 <+: w.1 ∧ u.1 ≠ w.1))
    (hpost : ∃ u ∈ post, u.1 <+: w.1) : ofWrites (pre ++ w :: post) = ofWrites (pre ++ post) := by
  obtain ⟨u, hu, hup⟩ := hpost
  obtain ⟨mid, rest, rfl⟩ := List.append_of_mem hu
  have hagree := agreeOff_ofWrites h mid
  have hl : pre ++ w :: (mid ++ u :: rest) = (pre ++ w :: mid) ++ u :: rest := by simp
  have hr : pre ++ (mid ++ u :: rest) = (pre ++ mid) ++ u :: rest := by simp
  rw [hl, hr, ofWrites_append, ofWrites_append (pre ++ mid), List.foldl_cons, List.foldl_cons,
    hagree.write_eq hup]

/-- Below the path of a later overwrite, an overwrite leaves no trace. -/
theorem ofWrites_covered {q : List κ} (h : ∃ u ∈ post, u.1 <+: q) :
    ofWrites (pre ++ w :: post) q = ofWrites (pre ++ post) q := by
  rw [ofWrites_append, ofWrites_append, List.foldl_cons]
  exact foldl_write_congr (.inr h)

/-- **An overwrite apart from all others** is all the patch says from its path on. -/
theorem ofWrites_alone (h : ∀ u ∈ pre ++ post, ¬ u.1 <+: w.1 ∧ ¬ w.1 <+: u.1) :
    erase w.1 (ofWrites (pre ++ w :: post)) = ofWrites (pre ++ post) := by
  funext q
  rw [erase]
  split_ifs with hq
  · refine (ofWrites_eq_none_iff.mpr fun u hu hup => ?_).symm
    rcases List.prefix_or_prefix_of_prefix hup hq with hle | hle
    · exact (h u hu).1 hle
    · exact (h u hu).2 hle
  · refine agreeOff_ofWrites (fun u hu hup => ?_) post q hq
    exact (h u (List.mem_append_left _ hu)).1 hup.1

end Patch
end Patches
