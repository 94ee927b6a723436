import Mathlib.Data.List.Perm.Basic
import Mathlib.Order.Lattice

/-! # Sorting with a comparator that may trap

A comparator is code: it can fail on some arguments, and then the sort fails with it.  A
`Sorter` is what a library promises about its `sorted(by:)`:

* on a list whose comparisons all succeed with the answers of a strict weak order, the result is
  an ordered permutation of the list (`sorted_total`), not necessarily a stable one;
* whatever the comparator, a sort only permutes (`sorted_perm`), and it ends when no comparison
  fails (`sorted_ok`);
* a list of at most one element is returned without a comparison (`sorted_short`);
* an element of a longer list takes part in some comparison, so one on which every comparison
  traps makes the sort trap (`sorted_trap`).

`insertionSorter` shows that the promise can be kept, and `insertionSort_head` how little it says of
a comparator that is no strict weak order: which element comes first depends on which came last. -/

namespace PartialSort

/-- A strict weak order given by its test: asymmetric, with a transitive complement. -/
structure StrictWeak {α : Type} (lt : α → α → Bool) : Prop where
  asymm : ∀ a b, lt a b = true → lt b a = false
  trans_not : ∀ a b c, lt a b = false → lt b c = false → lt a c = false

/-- Comparing keys in a linear order, the larger key first. -/
theorem strictWeak_of_key {α κ : Type} [LinearOrder κ] (key : α → κ) :
    StrictWeak (fun a b => decide (key b < key a)) where
  asymm a b h := by
    simp only [decide_eq_true_eq] at h
    simpa using h.le
  trans_not a b c h₁ h₂ := by
    simp only [decide_eq_false_iff_not, not_lt] at h₁ h₂ ⊢
    exact h₁.trans h₂

/-- The list is in the order of the test: nothing comes after an element it has to precede. -/
def Ordered {α : Type} (lt : α → α → Bool) (l : List α) : Prop :=
  l.Pairwise (fun a b => lt b a = false)

/-- A sorting procedure for comparators that may trap. -/
structure Sorter (ε : Type) where
  sorted : {α : Type} → (α → α → Except ε Bool) → List α → Except ε (List α)
  sorted_total : ∀ {α : Type} {cmp : α → α → Except ε Bool} {lt : α → α → Bool} {l : List α},
    StrictWeak lt → (∀ a ∈ l, ∀ b ∈ l, cmp a b = .ok (lt a b)) →
    ∃ l', sorted cmp l = .ok l' ∧ l'.Perm l ∧ Ordered lt l'
  sorted_perm : ∀ {α : Type} (cmp : α → α → Except ε Bool) {l l' : List α},
    sorted cmp l = .ok l' → l'.Perm l
  sorted_ok : ∀ {α : Type} (cmp : α → α → Except ε Bool) {l : List α},
    (∀ a ∈ l, ∀ b ∈ l, ∃ r, cmp a b = .ok r) → ∃ l', sorted cmp l = .ok l'
  sorted_short : ∀ {α : Type} (cmp : α → α → Except ε Bool) (l : List α), l.length ≤ 1 →
    sorted cmp l = .ok l
  sorted_trap : ∀ {α : Type} (cmp : α → α → Except ε Bool) {l : List α} {x : α}, x ∈ l →
    2 ≤ l.length → (∀ y ∈ l, (∃ e, cmp x y = .error e) ∧ ∃ e, cmp y x = .error e) →
    ∃ e, sorted cmp l = .error e

/-! ### Insertion sort -/

section insertion
variable {α ε : Type} (cmp : α → α → Except ε Bool)

def insertBy (x : α) : List α → Except ε (List α)
  | [] => .ok [x]
  | y :: ys =>
      match cmp x y with
      | .error e => .error e
      | .ok true => .ok (x :: y :: ys)
      | .ok false =>
          match insertBy x ys with
          | .error e => .error e
          | .ok zs => .ok (y :: zs)

def insertionSort : List α → Except ε (List α)
  | [] => .ok []
  | x :: xs =>
      match insertionSort xs with
      | .error e => .error e
      | .ok ys => insertBy cmp x ys

variable {cmp} {lt : α → α → Bool}

theorem insertBy_perm {x : α} {ys zs : List α} (h : insertBy cmp x ys = .ok zs) :
    zs.Perm (x :: ys) := by
  induction ys generalizing zs with
  | nil =>
      obtain rfl : [x] = zs := by simpa [insertBy] using h
      exact .refl _
  | cons y ys ih =>
      rw [insertBy] at h
      split at h
      · cases h
      · cases h
        exact .refl _
      · split at h
        · cases h
        · cases h
          exact ((ih ‹_›).cons y).trans (List.Perm.swap x y ys)

theorem insertionSort_perm {l l' : List α} (h : insertionSort cmp l = .ok l') : l'.Perm l := by
  induction l generalizing l' with
  | nil =>
      obtain rfl : [] = l' := by simpa [insertionSort] using h
      exact .refl _
  | cons x xs ih =>
      rw [insertionSort] at h
      split at h
      · cases h
      · exact (insertBy_perm h).trans ((ih ‹_›).cons x)

theorem insertBy_total (hlt : StrictWeak lt) {x : α} {ys : List α}
    (hcmp : ∀ y ∈ ys, cmp x y = .ok (lt x y)) (hys : Ordered lt ys) :
    ∃ zs, insertBy cmp x ys = .ok zs ∧ Ordered lt zs := by
  induction ys with
  | nil => exact ⟨[x], rfl, List.pairwise_singleton _ _⟩
  | cons y ys ih =>
      obtain ⟨hy, hrest⟩ := List.pairwise_cons.mp hys
      rw [insertBy, hcmp y List.mem_cons_self]
      cases hxy : lt x y with
      | true =>
          refine ⟨_, rfl, List.pairwise_cons.mpr ⟨?_, hys⟩⟩
          intro z hz
          have hyx := hlt.asymm x y hxy
          rcases List.mem_cons.mp hz with rfl | hz
          · exact hyx
          · exact hlt.trans_not z y x (hy z hz) hyx
      | false =>
          obtain ⟨zs, hzs, hord⟩ := ih (fun z hz => hcmp z (List.mem_cons_of_mem _ hz)) hrest
          refine ⟨y :: zs, by simp [hzs], List.pairwise_cons.mpr ⟨?_, hord⟩⟩
          intro z hz
          rcases List.mem_cons.mp ((insertBy_perm hzs).mem_iff.mp hz) with rfl | hz
          · exact hxy
          · exact hy z hz

theorem insertionSort_total (hlt : StrictWeak lt) {l : List α}
    (hcmp : ∀ a ∈ l, ∀ b ∈ l, cmp a b = .ok (lt a b)) :
    ∃ l', insertionSort cmp l = .ok l' ∧ l'.Perm l ∧ Ordered lt l' := by
  induction l with
  | nil => exact ⟨[], rfl, .refl _, List.Pairwise.nil⟩
  | cons x xs ih =>
      obtain ⟨ys, hys, hp, hord⟩ := ih fun a ha b hb =>
        hcmp a (List.mem_cons_of_mem _ ha) b (List.mem_cons_of_mem _ hb)
      obtain ⟨zs, hzs, hord'⟩ := insertBy_total hlt (x := x)
        (fun y hy => hcmp x List.mem_cons_self y (List.mem_cons_of_mem _ (hp.mem_iff.mp hy))) hord
      have hsort : insertionSort cmp (x :: xs) = .ok zs := by rw [insertionSort, hys]; exact hzs
      exact ⟨zs, hsort, insertionSort_perm hsort, hord'⟩

theorem insertionSort_trap {l : List α} {x : α} (hx : x ∈ l) (hlen : 2 ≤ l.length)
    (hcmp : ∀ y ∈ l, (∃ e, cmp x y = .error e) ∧ ∃ e, cmp y x = .error e) :
    ∃ e, insertionSort cmp l = .error e := by
  induction l with
  | nil => cases hx
  | cons a as ih =>
      rw [insertionSort]
      cases hs : insertionSort cmp as with
      | error e => exact ⟨e, rfl⟩
      | ok ys =>
          have hp := insertionSort_perm hs
          cases ys with
          | nil =>
              have := hp.length_eq
              simp only [List.length_cons, List.length_nil] at hlen this
              omega
          | cons y ys =>
              have hy : y ∈ a :: as := List.mem_cons_of_mem _ (hp.mem_iff.mp List.mem_cons_self)
              rcases List.mem_cons.mp hx with rfl | hxs
              · obtain ⟨e, he⟩ := (hcmp y hy).1
                exact ⟨e, by simp [insertBy, he]⟩
              · -- `x` was sorted without a trap, so it is the only element of the tail
                by_cases hlen' : 2 ≤ as.length
                · obtain ⟨e, he⟩ := ih hxs hlen' fun z hz => hcmp z (List.mem_cons_of_mem _ hz)
                  rw [hs] at he
                  cases he
                · obtain ⟨b, rfl⟩ : ∃ b, as = [b] := by
                    have := hp.length_eq
                    simp only [List.length_cons] at this
                    exact List.length_eq_one_iff.mp (by omega)
                  obtain rfl : x = b := by simpa using hxs
                  obtain ⟨rfl, -⟩ : y = x ∧ ys = [] := by simpa using List.perm_singleton.mp hp
                  obtain ⟨e, he⟩ := (hcmp a List.mem_cons_self).2
                  exact ⟨e, by simp [insertBy, he]⟩

theorem insertBy_ok {x : α} {ys : List α} (hcmp : ∀ y ∈ ys, ∃ r, cmp x y = .ok r) :
    ∃ zs, insertBy cmp x ys = .ok zs := by
  induction ys with
  | nil => exact ⟨[x], rfl⟩
  | cons y ys ih =>
      obtain ⟨r, hr⟩ := hcmp y List.mem_cons_self
      obtain ⟨zs, hzs⟩ := ih fun z hz => hcmp z (List.mem_cons_of_mem _ hz)
      rw [insertBy, hr]
      cases r with
      | true => exact ⟨_, rfl⟩
      | false => exact ⟨y :: zs, by simp [hzs]⟩

theorem insertionSort_ok {l : List α} (hcmp : ∀ a ∈ l, ∀ b ∈ l, ∃ r, cmp a b = .ok r) :
    ∃ l', insertionSort cmp l = .ok l' := by
  induction l with
  | nil => exact ⟨[], rfl⟩
  | cons x xs ih =>
      obtain ⟨ys, hys⟩ := ih fun a ha b hb =>
        hcmp a (List.mem_cons_of_mem _ ha) b (List.mem_cons_of_mem _ hb)
      have hx : ∀ y ∈ ys, ∃ r, cmp x y = .ok r := fun y hy =>
        hcmp x List.mem_cons_self y
          (List.mem_cons_of_mem _ ((insertionSort_perm hys).mem_iff.mp hy))
      obtain ⟨zs, hzs⟩ := insertBy_ok hx
      exact ⟨zs, by rw [insertionSort, hys]; exact hzs⟩

/-- The head of a list stays, unless what is inserted precedes it. -/
theorem insertBy_head {x y : α} {ys zs : List α} (h : insertBy cmp x (y :: ys) = .ok zs) :
    zs.head? = some y ∨ zs.head? = some x ∧ cmp x y = .ok true := by
  rw [insertBy] at h
  split at h
  · cases h
  · cases h
    exact .inr ⟨rfl, ‹_›⟩
  · split at h
    · cases h
    · cases h
      exact .inl rfl

/-- The head of a sorted list is what was last in the list, unless something precedes that; and then
the head precedes something. -/
theorem insertionSort_head {q : α} {l l' : List α} (h : insertionSort cmp (l ++ [q]) = .ok l') :
    ∃ a, l'.head? = some a ∧ (a = q ∨ (∃ b, cmp a b = .ok true) ∧ ∃ b, cmp b q = .ok true) := by
  induction l generalizing l' with
  | nil =>
      obtain rfl : [q] = l' := by simpa [insertionSort, insertBy] using h
      exact ⟨q, rfl, .inl rfl⟩
  | cons x xs ih =>
      rw [List.cons_append, insertionSort] at h
      split at h
      · cases h
      · rename_i ys hys
        obtain ⟨a, ha, hcase⟩ := ih hys
        obtain ⟨ys, rfl⟩ := List.head?_eq_some_iff.mp ha
        rcases insertBy_head h with hhead | ⟨hhead, hx⟩
        · exact ⟨a, hhead, hcase⟩
        · refine ⟨x, hhead, .inr ⟨⟨a, hx⟩, ?_⟩⟩
          rcases hcase with rfl | ⟨-, hq⟩
          · exact ⟨x, hx⟩
          · exact hq

end insertion

/-- Insertion sort keeps the promise. -/
def insertionSorter (ε : Type) : Sorter ε where
  sorted := insertionSort
  sorted_total hlt hcmp := insertionSort_total hlt hcmp
  sorted_perm _ _ _ h := insertionSort_perm h
  sorted_ok _ _ hcmp := insertionSort_ok hcmp
  sorted_short cmp l h := by
    match l, h with
    | [], _ => rfl
    | [_], _ => rfl
    | _ :: _ :: _, h => simp at h
  sorted_trap _ _ _ hx hlen hcmp := insertionSort_trap hx hlen hcmp

end PartialSort
