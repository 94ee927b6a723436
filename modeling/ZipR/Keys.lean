import ZipR.Node
import Mathlib.Data.List.Basic

/-! # The order of keys

`FUtilities.compareKey` on strings: keys that read as 32-bit integers come first, by value and then
by length, the others after them by their code units.

* **Order.** `compareKey` is total and transitive (`TransCmp`).
* **Ties.** Different keys tie only as a negative and an unsigned zero of the same length
  (`compareKey_eq_iff`); on the keys that are no negative zero it is an order. -/

namespace ZipR

open Std

/-- The UTF-16 code units of a string. -/
abbrev NSString := List UInt16

namespace FUtilities

/-- The loop over the digits; none at a character that is not a digit. -/
def digitsValue : NSString → Nat → Option Nat
  | [], value => some value
  | c :: rest, value =>
      if c < 48 ∨ 57 < c then none else digitsValue rest (value * 10 + (c.toNat - 48))

def inInteger32 (value : Int) : Option Int :=
  if value < -2147483648 ∨ 2147483647 < value then none else some value

def tryParseStringToInt (str : NSString) : Option Int :=
  if 11 < str.length then none
  else
    match str with
    | [] => none
    | c :: rest =>
        if c = 45 then
          if rest = [] then none
          else (digitsValue rest 0).bind fun value => inInteger32 (-value)
        else (digitsValue (c :: rest) 0).bind fun value => inInteger32 value

/-- Without the sentinels of queries, which are compared by identity. -/
def compareKey (a b : NSString) : Ordering :=
  match tryParseStringToInt a, tryParseStringToInt b with
  | some aAsInt, some bAsInt =>
      if aAsInt > bAsInt then .gt
      else if aAsInt < bAsInt then .lt
      else if a.length > b.length then .gt
      else if a.length < b.length then .lt
      else .eq
  | some _, none => .lt
  | none, some _ => .gt
  | none, none => compare a b

/-! ### A total order up to ties -/

/-- What decides the order of a string: whether it is no integer, the value, the length and the
code units. -/
def rankClass (a : NSString) : Nat := if (tryParseStringToInt a).isSome then 0 else 1

def rankValue (a : NSString) : Int := (tryParseStringToInt a).getD 0

def rankLength (a : NSString) : Nat := if (tryParseStringToInt a).isSome then a.length else 0

def rankUnits (a : NSString) : NSString := if (tryParseStringToInt a).isSome then [] else a

theorem compareKey_eq_lex : compareKey = compareLex (compareOn rankClass) (compareLex
    (compareOn rankValue) (compareLex (compareOn rankLength) (compareOn rankUnits))) := by
  funext a b
  simp only [compareKey, compareLex, compareOn, rankClass, rankValue, rankLength, rankUnits]
  cases tryParseStringToInt a with
  | none =>
      cases tryParseStringToInt b with
      | none => simp
      | some y => rfl
  | some x =>
      cases tryParseStringToInt b with
      | none => rfl
      | some y =>
          have hx : compare x y = if x < y then .lt else if x = y then .eq else .gt := rfl
          have hlen : compare a.length b.length =
              if a.length < b.length then .lt
              else if a.length = b.length then .eq else .gt := rfl
          simp only [Option.isSome_some, if_true, Option.getD_some, hx, hlen]
          split_ifs <;> first | rfl | omega

instance : TransCmp compareKey := compareKey_eq_lex ▸ inferInstance

/-! ### Ties -/

theorem digitsValue_inj {a b : NSString} {x y v : Nat} (ha : digitsValue a x = some v)
    (hb : digitsValue b y = some v) (hlen : a.length = b.length) : a = b ∧ x = y := by
  induction a generalizing b x y with
  | nil =>
      obtain rfl := List.length_eq_zero_iff.mp hlen.symm
      exact ⟨rfl, (Option.some.inj ha).trans (Option.some.inj hb).symm⟩
  | cons c a ih =>
      cases b with
      | nil => cases hlen
      | cons d b =>
          rw [digitsValue] at ha hb
          split_ifs at ha hb with hc hd
          obtain ⟨rfl, hxy⟩ := ih ha hb (Nat.succ.inj hlen)
          rw [not_or, UInt16.not_lt, UInt16.not_lt, UInt16.le_iff_toNat_le,
            UInt16.le_iff_toNat_le] at hc hd
          simp only [UInt16.reduceToNat] at hc hd
          have hcd : c = d := UInt16.toNat_inj.mp (by omega)
          exact ⟨hcd ▸ rfl, by omega⟩

theorem digitsValue_zeros (n : Nat) : digitsValue (List.replicate n 48) 0 = some 0 := by
  induction n with
  | zero => rfl
  | succ n ih => exact ih

/-- A string of digits with the value 0 has only zeros. -/
theorem eq_zeros {a : NSString} (h : digitsValue a 0 = some 0) :
    a = List.replicate a.length 48 :=
  (digitsValue_inj h (digitsValue_zeros a.length) (by simp)).1

/-- The reading of a string that is an integer: its sign and its digits. -/
theorem tryParseStringToInt_cases {a : NSString} {x : Int} (h : tryParseStringToInt a = some x) :
    (∃ v : Nat, digitsValue a 0 = some v ∧ x = v) ∨
      ∃ rest v, a = 45 :: rest ∧ rest ≠ [] ∧ digitsValue rest 0 = some v ∧ x = -(v : Int) := by
  cases a with
  | nil => cases h
  | cons c rest =>
      have hrange : ∀ {y : Int}, inInteger32 y = some x → x = y := by
        intro y hy
        rw [inInteger32] at hy
        split_ifs at hy
        exact (Option.some.inj hy).symm
      rw [tryParseStringToInt] at h
      split_ifs at h with hlen hc hrest
      · obtain ⟨v, hv, hx⟩ := Option.bind_eq_some_iff.mp h
        exact .inr ⟨rest, v, by rw [hc], hrest, hv, hrange hx⟩
      · obtain ⟨v, hv, hx⟩ := Option.bind_eq_some_iff.mp h
        exact .inl ⟨v, hv, hrange hx⟩

/-- A minus sign before zeros only. -/
def IsNegativeZero (a : NSString) : Prop := ∃ n, a = 45 :: List.replicate (n + 1) 48

/-- Two strings of one length, one of them a negative zero and the other all zeros. -/
def SameZero (a b : NSString) : Prop := IsNegativeZero a ∧ b = List.replicate a.length 48

theorem sameZero_of_neg {a b rest : NSString} {v w : Nat} (ha : a = 45 :: rest) (hrest : rest ≠ [])
    (hv : digitsValue rest 0 = some v) (hw : digitsValue b 0 = some w)
    (hvw : -(v : Int) = w) (hlen : a.length = b.length) : SameZero a b := by
  obtain ⟨rfl, rfl⟩ : v = 0 ∧ w = 0 := by omega
  refine ⟨⟨rest.length - 1, ?_⟩, ?_⟩
  · have hpos := List.length_pos_iff.mpr hrest
    rw [Nat.sub_add_cancel hpos, ha]
    exact congrArg _ (eq_zeros hv)
  · rw [hlen]
    exact eq_zeros hw

theorem tryParseStringToInt_zero {a b : NSString} (h : SameZero a b) (hlen : a.length ≤ 11) :
    tryParseStringToInt a = some 0 ∧ tryParseStringToInt b = some 0 := by
  obtain ⟨⟨n, rfl⟩, rfl⟩ := h
  have hn : ¬ 11 < n + 1 + 1 := by
    rw [List.length_cons, List.length_replicate] at hlen
    omega
  have hdigits := digitsValue_zeros (n + 1)
  constructor
  · simp only [tryParseStringToInt, List.length_cons, List.length_replicate, hn, if_false, if_true,
      List.replicate_succ_ne_nil, hdigits]
    rfl
  · have hdigits' := digitsValue_zeros (n + 1 + 1)
    rw [List.replicate_succ] at hdigits'
    simp only [tryParseStringToInt, List.length_cons, List.length_replicate, hn, if_false,
      List.replicate_succ (n := n + 1), hdigits']
    rfl

/-- **Different keys tie only as zeros**: a negative one and an unsigned one of the same length. -/
theorem compareKey_eq_iff {a b : NSString} : compareKey a b = .eq ↔
    a = b ∨ a.length ≤ 11 ∧ (SameZero a b ∨ SameZero b a) := by
  constructor
  · intro h
    rw [compareKey] at h
    cases ha : tryParseStringToInt a with
    | none =>
        cases hb : tryParseStringToInt b with
        | none => exact .inl (by simpa [ha, hb] using h)
        | some y => simp [ha, hb] at h
    | some x =>
        cases hb : tryParseStringToInt b with
        | none => simp [ha, hb] at h
        | some y =>
            simp only [ha, hb] at h
            split_ifs at h
            have hxy : x = y := by omega
            have hlen : a.length = b.length := by omega
            have hle : a.length ≤ 11 := by
              by_contra hlong
              simp [tryParseStringToInt, Nat.not_le.mp hlong] at ha
            rcases tryParseStringToInt_cases ha with ⟨v, hv, hx⟩ | ⟨r, v, hr, hne, hv, hx⟩
            · rcases tryParseStringToInt_cases hb with ⟨w, hw, hy⟩ | ⟨r, w, hr, hne, hw, hy⟩
              · have hvw : v = w := by omega
                exact .inl (digitsValue_inj hv (hvw ▸ hw) hlen).1
              · exact .inr ⟨hle, .inr (sameZero_of_neg hr hne hw hv (by omega) hlen.symm)⟩
            · rcases tryParseStringToInt_cases hb with ⟨w, hw, hy⟩ | ⟨s, w, hs, -, hw, hy⟩
              · exact .inr ⟨hle, .inl (sameZero_of_neg hr hne hv hw (by omega) hlen)⟩
              · have hvw : v = w := by omega
                have hrs : r.length = s.length := by simpa [hr, hs] using hlen
                rw [hr, hs, (digitsValue_inj hv (hvw ▸ hw) hrs).1]
                exact .inl rfl
  · have hzero : ∀ {c d : NSString}, SameZero c d → c.length ≤ 11 → compareKey c d = .eq := by
      intro c d h hlen
      obtain ⟨hc, hd⟩ := tryParseStringToInt_zero h hlen
      have hcd : c.length = d.length := by simp [h.2]
      simp [compareKey, hc, hd, hcd]
    rintro (rfl | ⟨hlen, h | h⟩)
    · exact ReflCmp.compare_self
    · exact hzero h hlen
    · have hba : b.length = a.length := by simp [h.2]
      exact OrientedCmp.eq_symm (hzero h (hba ▸ hlen))

/-! ### Keys -/

/-- The keys that are no negative zero. -/
def Key : Type := { a : NSString // ¬ IsNegativeZero a }

instance : DecidableEq Key := inferInstanceAs (DecidableEq { a : NSString // ¬ IsNegativeZero a })

/-- The string comparator compares literally here, as it does for the characters of ASCII. -/
instance : Comparators Key where
  keyComparator a b := compareKey a.1 b.1
  stringComparator a b := compare a.1 b.1

instance : LawfulComparators Key where
  key_trans := {
    eq_swap := fun {a b} => (OrientedCmp.eq_swap : compareKey a.1 b.1 = _)
    isLE_trans := fun {a b c} => (TransCmp.isLE_trans : (compareKey a.1 b.1).isLE = true → _) }
  key_eq := {
    compare_self := fun {a} => (ReflCmp.compare_self : compareKey a.1 a.1 = _)
    eq_of_compare := fun {a b} h => by
      rcases compareKey_eq_iff.mp h with h | ⟨-, h | h⟩
      · exact Subtype.ext h
      · exact absurd h.1 a.2
      · exact absurd h.1 b.2 }
  string_trans := {
    eq_swap := fun {a b} => (OrientedCmp.eq_swap : compare a.1 b.1 = _)
    isLE_trans := fun {a b c} => (TransCmp.isLE_trans : (compare a.1 b.1).isLE = true → _) }
  string_eq := {
    compare_self := fun {a} => (ReflCmp.compare_self : compare a.1 a.1 = _)
    eq_of_compare := fun {a b} (h : compare a.1 b.1 = _) => Subtype.ext (LawfulEqCmp.eq_of_compare h) }

end FUtilities
end ZipR
