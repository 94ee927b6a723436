import Mathlib.Data.List.Pairwise
import Mathlib.Data.List.Basic

/-! # Finite maps as sorted lists of entries

The reference semantics of sorted dictionaries: a list of entries whose keys ascend strictly under
a comparator.

* **Operations.** `find`, `insert` and `remove` walk the list until they meet the key or pass it.
* **Laws.** `insert` and `remove` keep the list sorted (`Sorted.insert`, `Sorted.remove`), and
  `find` sees them at the key and nowhere else.
* **Extensionality.** Sorted lists that agree under `find` are equal (`Sorted.ext`). -/

namespace SortedEntries

open Std

variable {κ α : Type} (cmp : κ → κ → Ordering)

def find (k : κ) : List (κ × α) → Option α
  | [] => none
  | (l, a) :: es =>
      match cmp k l with
      | .lt => none
      | .eq => some a
      | .gt => find k es

def insert (k : κ) (a : α) : List (κ × α) → List (κ × α)
  | [] => [(k, a)]
  | (l, b) :: es =>
      match cmp k l with
      | .lt => (k, a) :: (l, b) :: es
      | .eq => (k, a) :: es
      | .gt => (l, b) :: insert k a es

def remove (k : κ) : List (κ × α) → List (κ × α)
  | [] => []
  | (l, b) :: es =>
      match cmp k l with
      | .lt => (l, b) :: es
      | .eq => es
      | .gt => (l, b) :: remove k es

/-- The keys ascend. -/
def Sorted (es : List (κ × α)) : Prop := es.Pairwise fun a b => cmp a.1 b.1 = .lt

variable {cmp}

@[simp] theorem find_nil (k : κ) : find cmp k ([] : List (κ × α)) = none := rfl

theorem sorted_nil : Sorted cmp ([] : List (κ × α)) := .nil

theorem sorted_cons {e : κ × α} {es : List (κ × α)} :
    Sorted cmp (e :: es) ↔ (∀ e' ∈ es, cmp e.1 e'.1 = .lt) ∧ Sorted cmp es := List.pairwise_cons

theorem insert_ne_nil (k : κ) (a : α) (es : List (κ × α)) : insert cmp k a es ≠ [] := by
  cases es with
  | nil => exact List.cons_ne_nil _ _
  | cons e es =>
      rw [insert]
      split <;> exact List.cons_ne_nil _ _

theorem mem_of_mem_insert {k : κ} {a : α} {e : κ × α} {es : List (κ × α)}
    (h : e ∈ insert cmp k a es) : e = (k, a) ∨ e ∈ es := by
  induction es with
  | nil => exact .inl (List.mem_singleton.mp h)
  | cons e' es ih =>
      obtain ⟨l, b⟩ := e'
      rw [insert] at h
      split at h
      · exact List.mem_cons.mp h
      · exact (List.mem_cons.mp h).imp_right (List.mem_cons_of_mem _)
      · rcases List.mem_cons.mp h with rfl | h
        · exact .inr List.mem_cons_self
        · exact (ih h).imp_right (List.mem_cons_of_mem _)

theorem remove_sublist (k : κ) (es : List (κ × α)) : (remove cmp k es).Sublist es := by
  induction es with
  | nil => exact List.Sublist.refl _
  | cons e es ih =>
      rw [remove]
      split
      · exact List.Sublist.refl _
      · exact List.sublist_cons_self _ _
      · exact ih.cons_cons _

/-- Only the keys decide whether a list is sorted. -/
theorem Sorted.of_keys {β : Type} {es : List (κ × α)} {fs : List (κ × β)} (h : Sorted cmp es)
    (hkeys : es.map Prod.fst = fs.map Prod.fst) : Sorted cmp fs := by
  have hmap : (fs.map Prod.fst).Pairwise fun a b => cmp a b = .lt :=
    hkeys ▸ List.pairwise_map.mpr h
  exact List.pairwise_map.mp hmap

theorem Sorted.remove {es : List (κ × α)} (h : Sorted cmp es) (k : κ) :
    Sorted cmp (remove cmp k es) := h.sublist (remove_sublist k es)

theorem find_eq_none_of_lt {k : κ} {es : List (κ × α)} (h : ∀ e ∈ es, cmp k e.1 = .lt) :
    find cmp k es = none := by
  cases es with
  | nil => rfl
  | cons e es => rw [find, h e List.mem_cons_self]

theorem exists_mem_of_find {k : κ} {a : α} {es : List (κ × α)} (h : find cmp k es = some a) :
    ∃ l, (l, a) ∈ es := by
  induction es with
  | nil => cases h
  | cons e es ih =>
      obtain ⟨l, b⟩ := e
      simp only [find] at h
      split at h
      · cases h
      · cases h
        exact ⟨l, List.mem_cons_self⟩
      · obtain ⟨m, hm⟩ := ih h
        exact ⟨m, List.mem_cons_of_mem _ hm⟩

section orders
variable [TransCmp cmp]

theorem Sorted.insert {es : List (κ × α)} (h : Sorted cmp es) (k : κ) (a : α) :
    Sorted cmp (insert cmp k a es) := by
  induction es with
  | nil => exact List.pairwise_singleton _ _
  | cons e es ih =>
      obtain ⟨l, b⟩ := e
      obtain ⟨hlt, hes⟩ := sorted_cons.mp h
      rw [SortedEntries.insert]
      cases hk : cmp k l with
      | lt =>
          refine sorted_cons.mpr ⟨fun e' he' => ?_, h⟩
          rcases List.mem_cons.mp he' with rfl | he'
          · exact hk
          · exact TransCmp.lt_trans hk (hlt e' he')
      | eq => exact sorted_cons.mpr ⟨fun e' he' => TransCmp.lt_of_eq_of_lt hk (hlt e' he'), hes⟩
      | gt =>
          refine sorted_cons.mpr ⟨fun e' he' => ?_, ih hes⟩
          rcases mem_of_mem_insert he' with rfl | he'
          · exact OrientedCmp.lt_of_gt hk
          · exact hlt e' he'

theorem find_insert_self (k : κ) (a : α) (es : List (κ × α)) :
    find cmp k (insert cmp k a es) = some a := by
  induction es with
  | nil => simp only [insert, find, ReflCmp.compare_self]
  | cons e es ih =>
      obtain ⟨l, b⟩ := e
      rw [insert]
      cases hk : cmp k l with
      | lt | eq => simp only [find, ReflCmp.compare_self]
      | gt => simp only [find, hk, ih]

theorem find_insert_ne {k l : κ} (h : cmp l k ≠ .eq) (a : α) (es : List (κ × α)) :
    find cmp l (insert cmp k a es) = find cmp l es := by
  induction es with
  | nil =>
      simp only [insert, find]
      cases hl : cmp l k with
      | lt | gt => rfl
      | eq => exact absurd hl h
  | cons e es ih =>
      obtain ⟨m, b⟩ := e
      rw [insert]
      cases hk : cmp k m with
      | lt =>
          simp only [find]
          cases hl : cmp l k with
          | lt => simp only [TransCmp.lt_trans hl hk]
          | eq => exact absurd hl h
          | gt => rfl
      | eq =>
          simp only [find, ← TransCmp.congr_right hk]
          cases hl : cmp l k with
          | lt | gt => rfl
          | eq => exact absurd hl h
      | gt => simp only [find, ih]

theorem find_remove_self {es : List (κ × α)} (h : Sorted cmp es) (k : κ) :
    find cmp k (remove cmp k es) = none := by
  induction es with
  | nil => rfl
  | cons e es ih =>
      obtain ⟨l, b⟩ := e
      obtain ⟨hlt, hes⟩ := sorted_cons.mp h
      rw [remove]
      cases hk : cmp k l with
      | lt => simp only [find, hk]
      | eq => exact find_eq_none_of_lt fun e he => TransCmp.lt_of_eq_of_lt hk (hlt e he)
      | gt => simp only [find, hk, ih hes]

theorem find_remove_ne {k l : κ} (h : cmp l k ≠ .eq) {es : List (κ × α)} (hs : Sorted cmp es) :
    find cmp l (remove cmp k es) = find cmp l es := by
  induction es with
  | nil => rfl
  | cons e es ih =>
      obtain ⟨m, b⟩ := e
      obtain ⟨hlt, hes⟩ := sorted_cons.mp hs
      rw [remove]
      cases hk : cmp k m with
      | lt => rfl
      | eq =>
          simp only [find]
          cases hl : cmp l m with
          | lt => exact find_eq_none_of_lt fun e he => TransCmp.lt_trans hl (hlt e he)
          | eq => exact absurd (TransCmp.eq_trans hl (OrientedCmp.eq_symm hk)) h
          | gt => rfl
      | gt => simp only [find, ih hes]

end orders

theorem Sorted.nodup [ReflCmp cmp] {es : List (κ × α)} (h : Sorted cmp es) : es.Nodup :=
  h.imp fun {a b} hlt he => by simp [he, ReflCmp.compare_self] at hlt

section lawful
variable [TransCmp cmp] [LawfulEqCmp cmp]

/-- In a sorted list, membership is lookup. -/
theorem Sorted.mem_iff {es : List (κ × α)} (h : Sorted cmp es) {k : κ} {a : α} :
    (k, a) ∈ es ↔ find cmp k es = some a := by
  induction es with
  | nil => simp
  | cons e es ih =>
      obtain ⟨l, b⟩ := e
      obtain ⟨hlt, hes⟩ := sorted_cons.mp h
      rw [List.mem_cons, ih hes, find]
      cases hk : cmp k l with
      | lt =>
          have hne : k ≠ l := by
            rintro rfl
            simp [ReflCmp.compare_self] at hk
          have hnone := find_eq_none_of_lt fun e he => TransCmp.lt_trans hk (hlt e he)
          simp [hne, hnone]
      | eq =>
          obtain rfl := LawfulEqCmp.eq_of_compare hk
          simp [find_eq_none_of_lt hlt, eq_comm]
      | gt =>
          have hne : k ≠ l := by
            rintro rfl
            simp [ReflCmp.compare_self] at hk
          simp [hne]

/-- **Extensionality** of sorted lists. -/
theorem Sorted.ext {es fs : List (κ × α)} (hes : Sorted cmp es) (hfs : Sorted cmp fs)
    (h : ∀ k, find cmp k es = find cmp k fs) : es = fs := by
  induction es generalizing fs with
  | nil =>
      cases fs with
      | nil => rfl
      | cons f fs => simpa [find, ReflCmp.compare_self] using h f.1
  | cons e es ih =>
      obtain ⟨k, a⟩ := e
      have hk : find cmp k fs = some a := by
        rw [← h k]
        simp only [find, ReflCmp.compare_self]
      cases fs with
      | nil => cases hk
      | cons f fs =>
          obtain ⟨l, b⟩ := f
          have hl := h l
          simp only [find, ReflCmp.compare_self] at hk hl
          obtain ⟨hklt, hes'⟩ := sorted_cons.mp hes
          obtain ⟨hllt, hfs'⟩ := sorted_cons.mp hfs
          cases hkl : cmp k l with
          | lt => simp [hkl] at hk
          | gt => simp [OrientedCmp.lt_of_gt hkl] at hl
          | eq =>
              obtain rfl := LawfulEqCmp.eq_of_compare hkl
              obtain rfl : b = a := by simpa [hkl] using hk
              rw [ih hes' hfs' fun m => ?_]
              have hm := h m
              simp only [find] at hm
              cases hmk : cmp m k with
              | lt =>
                  rw [find_eq_none_of_lt fun e he => TransCmp.lt_trans hmk (hklt e he),
                    find_eq_none_of_lt fun e he => TransCmp.lt_trans hmk (hllt e he)]
              | eq =>
                  obtain rfl := LawfulEqCmp.eq_of_compare hmk
                  rw [find_eq_none_of_lt hklt, find_eq_none_of_lt hllt]
              | gt => simpa [hmk] using hm

end lawful
end SortedEntries
