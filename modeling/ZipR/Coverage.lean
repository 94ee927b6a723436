import Mathlib.Data.List.Infix
import Mathlib.Data.List.Basic
import Mathlib.Tactic.Common

/-! # Coverage by subscriptions

Paths are lists, and a subscription to a path covers all paths below it.  Of the paths that are
wanted only the topmost ones need a subscription.

* **Coverage.** Each wanted path is covered by exactly one topmost path (`existsUnique_topmost`).
* **Changes.** A path that was not covered takes the place of the topmost paths below it
  (`topmost_insert`), and when it goes they come back (`topmost_remove`); a covered path changes
  nothing (`topmost_insert_of_covered`, `topmost_remove_of_covered`). -/

namespace ZipR.Coverage

variable {κ : Type*} {W W' : List κ → Prop} {p q r : List κ}

/-- Something at or above the path is wanted. -/
def Covered (W : List κ → Prop) (p : List κ) : Prop := ∃ r, r <+: p ∧ W r

/-- The path is wanted and nothing above it is. -/
def Topmost (W : List κ → Prop) (p : List κ) : Prop := W p ∧ ∀ r, r <+: p → W r → r = p

/-- What is wanted at a topmost path is apart from the other topmost ones. -/
theorem Topmost.eq_of_above (h : Topmost W q) (hp : W p) (hpq : p <+: q) : p = q := h.2 p hpq hp

theorem topmost_congr (h : ∀ q, W q ↔ W' q) : Topmost W p ↔ Topmost W' p :=
  and_congr (h p) (forall_congr' fun r => imp_congr_right fun _ => imp_congr_left (h r))

/-! ### Coverage -/

/-- The shortest path above a path that is wanted. -/
theorem exists_topmost (h : Covered W p) : ∃ s, s <+: p ∧ Topmost W s := by
  obtain ⟨r, hr, hw⟩ := h
  induction hlength : r.length using Nat.strong_induction_on generalizing r with
  | _ length ih =>
      by_cases htop : ∀ s, s <+: r → W s → s = r
      · exact ⟨r, hr, hw, htop⟩
      · push Not at htop
        obtain ⟨s, hs, hws, hne⟩ := htop
        have hlt : s.length < length :=
          hlength ▸ Nat.lt_of_le_of_ne hs.length_le fun he => hne (hs.eq_of_length he)
        exact ih s.length hlt s (hs.trans hr) hws rfl

/-- **Whatever is covered is covered by exactly one topmost path.** -/
theorem existsUnique_topmost (h : Covered W p) : ∃! s, s <+: p ∧ Topmost W s := by
  obtain ⟨s, hs, htop⟩ := exists_topmost h
  refine ⟨s, ⟨hs, htop⟩, fun t ht => ?_⟩
  rcases List.prefix_or_prefix_of_prefix hs ht.1 with hst | hts
  · exact (ht.2.eq_of_above htop.1 hst).symm
  · exact htop.eq_of_above ht.2.1 hts

/-! ### Changes -/

section insert
variable (hW : ∀ q, W' q ↔ W q ∨ q = p)
include hW

/-- **A path that was not covered** takes the place of the topmost paths below it. -/
theorem topmost_insert (hp : ¬ Covered W p) :
    Topmost W' q ↔ q = p ∨ Topmost W q ∧ ¬ p <+: q := by
  constructor
  · rintro ⟨hq, htop⟩
    have hpW : W' p := (hW p).mpr (.inr rfl)
    by_cases hpq : p <+: q
    · exact .inl (htop p hpq hpW).symm
    · have hqW : W q := ((hW q).mp hq).resolve_right fun he => hpq (he ▸ List.prefix_refl p)
      exact .inr ⟨⟨hqW, fun r hr hw => htop r hr ((hW r).mpr (.inl hw))⟩, hpq⟩
  · rintro (rfl | ⟨⟨hq, htop⟩, hpq⟩)
    · exact ⟨(hW q).mpr (.inr rfl), fun r hr hw =>
        ((hW r).mp hw).resolve_left fun hr' => hp ⟨r, hr, hr'⟩⟩
    · refine ⟨(hW q).mpr (.inl hq), fun r hr hw => ?_⟩
      rcases (hW r).mp hw with hr' | rfl
      · exact htop r hr hr'
      · exact absurd hr hpq

theorem topmost_insert_of_covered (hp : Covered W p) (hnot : ¬ W p) :
    Topmost W' q ↔ Topmost W q := by
  obtain ⟨s, hs, hw⟩ := hp
  have hne : s ≠ p := fun he => hnot (he ▸ hw)
  constructor
  · rintro ⟨hq, htop⟩
    refine ⟨((hW q).mp hq).resolve_right fun he => ?_, fun r hr hr' =>
      htop r hr ((hW r).mpr (.inl hr'))⟩
    exact hne ((htop s (he ▸ hs) ((hW s).mpr (.inl hw))).trans he)
  · rintro ⟨hq, htop⟩
    refine ⟨(hW q).mpr (.inl hq), fun r hr hr' => ?_⟩
    rcases (hW r).mp hr' with hr' | rfl
    · exact htop r hr hr'
    · have hsq := htop s (hs.trans hr) hw
      exact absurd (hs.eq_of_length_le (hsq ▸ hr.length_le)) hne

end insert

section remove
variable (hW : ∀ q, W' q ↔ W q ∧ q ≠ p)
include hW

/-- **When a path goes that nothing covers**, the topmost ones of the paths below it come back. -/
theorem topmost_remove (hp : ∀ r, r <+: p → ¬ W' r) :
    Topmost W' q ↔ Topmost W q ∧ q ≠ p ∨
      p <+: q ∧ W' q ∧ ∀ r, p <+: r → r <+: q → W' r → r = q := by
  constructor
  · rintro ⟨hq, htop⟩
    by_cases hpq : p <+: q
    · exact .inr ⟨hpq, hq, fun r _ hr hw => htop r hr hw⟩
    · refine .inl ⟨⟨((hW q).mp hq).1, fun r hr hw => ?_⟩, ((hW q).mp hq).2⟩
      by_cases hrp : r = p
      · exact absurd (hrp ▸ hr) hpq
      · exact htop r hr ((hW r).mpr ⟨hw, hrp⟩)
  · rintro (⟨⟨hq, htop⟩, hne⟩ | ⟨hpq, hq, htop⟩)
    · exact ⟨(hW q).mpr ⟨hq, hne⟩, fun r hr hw => htop r hr ((hW r).mp hw).1⟩
    · refine ⟨hq, fun r hr hw => ?_⟩
      rcases List.prefix_or_prefix_of_prefix hr hpq with hrp | hpr
      · exact absurd hw (hp r hrp)
      · exact htop r hpr hr hw

theorem topmost_remove_of_covered (hp : Covered W' p) : Topmost W' q ↔ Topmost W q := by
  obtain ⟨s, hs, hw⟩ := hp
  obtain ⟨hsW, hne⟩ := (hW s).mp hw
  constructor
  · rintro ⟨hq, htop⟩
    refine ⟨((hW q).mp hq).1, fun r hr hr' => ?_⟩
    by_cases hrp : r = p
    · -- the covering path is above this one
      subst hrp
      exact absurd (hs.eq_of_length_le (htop s (hs.trans hr) hw ▸ hr.length_le)) hne
    · exact htop r hr ((hW r).mpr ⟨hr', hrp⟩)
  · rintro ⟨hq, htop⟩
    refine ⟨(hW q).mpr ⟨hq, fun he => ?_⟩, fun r hr hr' => htop r hr ((hW r).mp hr').1⟩
    exact hne ((htop s (he ▸ hs) hsW).trans he)

end remove

end ZipR.Coverage
