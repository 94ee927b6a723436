import ZipR.PartialSort
import ZipR.FloatingPoint

/-! # What the app runs on

The parts of Swift's standard library the model takes as given, with what the code relies on.

* **Traps.** `Trap` lists the run-time failures that end the process.
* **Numbers.** A `Double` is a floating-point value, `rounding` its arithmetic, `string` is
  `String(_:)` on a finite one and `double` the failable `Double(_:)`, which also reads "nan" and
  "inf".  The facts about them are the round trip `double_string` and that finite values are not
  rounded.  `Exact` are the platforms on which numbers are exact rationals.
* **Strings.** `==` on strings is canonical equivalence: an é is equal to an e with an accent.
  `canonical` is the normal form, and `same` compares by it.  Different UUID strings are never
  equivalent.
* **Sorting.** `sorter` is `sorted(by:)`, which is neither stable nor total: its comparator may
  trap. -/

namespace ZipR

/-- Run-time failures. -/
inductive Trap where
  /-- `!` on a nil value. -/
  | unexpectedlyNil
  /-- An array subscript out of range. -/
  | indexOutOfRange
  /-- `child(_:)` throws on a path string it does not accept. -/
  | invalidPath
  /-- `DispatchGroup.leave()` without a matching `enter()`. -/
  | unbalancedLeave
deriving DecidableEq, Repr

abbrev Double := FloatingPoint.Value

structure Platform where
  Finite : ℚ → Prop
  string : ℚ → String
  double : String → Option Double
  rounding : FloatingPoint.Rounding
  double_string : ∀ x, Finite x → double (string x) = some (.finite x)
  round_finite : ∀ x, Finite x → rounding.round x = .finite x
  canonical : String → String
  UUID : String → Prop
  canonical_uuid : ∀ a b, UUID a → UUID b → canonical a = canonical b → a = b
  sorter : PartialSort.Sorter Trap

namespace Platform

/-- `==` on strings. -/
def same (P : Platform) (a b : String) : Prop := P.canonical a = P.canonical b

instance (P : Platform) (a b : String) : Decidable (P.same a b) :=
  inferInstanceAs (Decidable (P.canonical a = P.canonical b))

/-- Numbers are exact rationals. -/
structure Exact (P : Platform) : Prop where
  round : ∀ x, P.rounding.round x = .finite x
  double : ∀ s x, P.double s = some x → ∃ q, x = .finite q

/-! ### Decimal text

Text as Swift writes and reads it, for numbers with at most six decimals. -/

/-- The first digits of the fraction `r / d`, at least one. -/
def fractionDigits (d : ℕ) : ℕ → ℕ → List Char
  | 0, _ => []
  | n + 1, r =>
      let digit := Nat.digitChar (r * 10 / d)
      if r * 10 % d = 0 then [digit] else digit :: fractionDigits d n (r * 10 % d)

def decimalString (x : ℚ) : String :=
  String.ofList ((if x.num < 0 then ['-'] else []) ++ Nat.toDigits 10 (x.num.natAbs / x.den) ++
    '.' :: fractionDigits x.den 6 (x.num.natAbs % x.den))

def decimalDigits (cs : List Char) : Option ℕ :=
  cs.foldlM (fun n c => if c.isDigit then some (10 * n + (c.toNat - '0'.toNat)) else none) 0

/-- Digits with at most one point and at least one digit. -/
def decimalMagnitude (cs : List Char) : Option ℚ :=
  match cs.splitOn '.' with
  | [whole] => if whole = [] then none else (decimalDigits whole).map fun n => (n : ℚ)
  | [whole, fraction] =>
      if whole = [] ∧ fraction = [] then none
      else (decimalDigits (whole ++ fraction)).map fun n => mkRat n (10 ^ fraction.length)
  | _ => none

def decimalNumber (s : String) : Option ℚ :=
  match s.toList with
  | '-' :: cs => (decimalMagnitude cs).map fun x => -x
  | cs => decimalMagnitude cs

/-! ### Normal forms

Canonical decomposition for the letters of Latin-1. -/

/-- An accent, and the letters with it beside those without. -/
def accents : List (Char × List (Char × Char)) := [
    ('\u0300', [('À', 'A'), ('È', 'E'), ('Ì', 'I'), ('Ò', 'O'), ('Ù', 'U'), ('à', 'a'),
      ('è', 'e'), ('ì', 'i'), ('ò', 'o'), ('ù', 'u')]),
    ('\u0301', [('Á', 'A'), ('É', 'E'), ('Í', 'I'), ('Ó', 'O'), ('Ú', 'U'), ('Ý', 'Y'),
      ('á', 'a'), ('é', 'e'), ('í', 'i'), ('ó', 'o'), ('ú', 'u'), ('ý', 'y')]),
    ('\u0302', [('Â', 'A'), ('Ê', 'E'), ('Î', 'I'), ('Ô', 'O'), ('Û', 'U'), ('â', 'a'),
      ('ê', 'e'), ('î', 'i'), ('ô', 'o'), ('û', 'u')]),
    ('\u0303', [('Ã', 'A'), ('Ñ', 'N'), ('Õ', 'O'), ('ã', 'a'), ('ñ', 'n'), ('õ', 'o')]),
    ('\u0308', [('Ä', 'A'), ('Ë', 'E'), ('Ï', 'I'), ('Ö', 'O'), ('Ü', 'U'), ('ä', 'a'),
      ('ë', 'e'), ('ï', 'i'), ('ö', 'o'), ('ü', 'u'), ('ÿ', 'y')]),
    ('\u030a', [('Å', 'A'), ('å', 'a')]),
    ('\u0327', [('Ç', 'C'), ('ç', 'c')])]

def decompositions : List (Char × List Char) :=
  accents.flatMap fun (accent, letters) => letters.map fun (letter, base) => (letter, [base, accent])

def decompose (c : Char) : List Char := (decompositions.lookup c).getD [c]

def decomposed (s : String) : String := String.ofList (s.toList.flatMap decompose)

/-- The characters of UUID strings. -/
def hexCharacters : List Char :=
  ['0', '1', '2', '3', '4', '5', '6', '7', '8', '9', 'A', 'B', 'C', 'D', 'E', 'F', '-']

def isUUID (s : String) : Bool := s.toList.all fun c => hexCharacters.contains c

theorem decompose_hex : ∀ c ∈ hexCharacters, decompose c = [c] := by
  have hall : (hexCharacters.all fun c => decompose c == [c]) = true := rfl
  exact fun c hc => eq_of_beq (List.all_eq_true.mp hall c hc)

theorem decomposed_of_isUUID {s : String} (h : isUUID s = true) : decomposed s = s := by
  have hall : ∀ c ∈ s.toList, decompose c = [c] := fun c hc =>
    decompose_hex c (by simpa using List.all_eq_true.mp h c hc)
  rw [decomposed, List.flatMap_congr hall]
  simp

/-! ### Two platforms -/

/-- Exact arithmetic, decimal text and insertion sort; finite are the numbers the text keeps. -/
def decimal : Platform where
  Finite x := decimalNumber (decimalString x) = some x
  string := decimalString
  double s := (decimalNumber s).map .finite
  rounding := .exact
  double_string x h := by rw [h]; rfl
  round_finite _ _ := rfl
  canonical := decomposed
  UUID s := isUUID s = true
  canonical_uuid a b ha hb h := by
    rwa [decomposed_of_isUUID ha, decomposed_of_isUUID hb] at h
  sorter := PartialSort.insertionSorter Trap

theorem decimal_exact : decimal.Exact where
  round _ := rfl
  double s x h := by
    obtain ⟨q, -, rfl⟩ := Option.map_eq_some_iff.mp h
    exact ⟨q, rfl⟩

def binary64Double (s : String) : Option Double :=
  if s = "nan" then some .nan
  else if s = "inf" then some (.infinity false)
  else if s = "-inf" then some (.infinity true)
  else (decimalNumber s).map FloatingPoint.Format.binary64.round

/-- IEEE arithmetic and text; finite are the numbers of the format the text keeps. -/
def binary64 : Platform where
  Finite x := binary64Double (decimalString x) = some (.finite x) ∧
    FloatingPoint.Format.binary64.round x = .finite x
  string := decimalString
  double := binary64Double
  rounding := FloatingPoint.Format.binary64.rounding
  double_string _ h := h.1
  round_finite _ h := h.2
  canonical := decomposed
  UUID s := isUUID s = true
  canonical_uuid a b ha hb h := by
    rwa [decomposed_of_isUUID ha, decomposed_of_isUUID hb] at h
  sorter := PartialSort.insertionSorter Trap

instance (x : ℚ) : Decidable (decimal.Finite x) :=
  inferInstanceAs (Decidable (decimalNumber (decimalString x) = some x))

instance (x : ℚ) : Decidable (binary64.Finite x) :=
  inferInstanceAs (Decidable (binary64Double (decimalString x) = some (.finite x) ∧
    FloatingPoint.Format.binary64.round x = .finite x))

instance (s : String) : Decidable (decimal.UUID s) := inferInstanceAs (Decidable (isUUID s = true))

instance (s : String) : Decidable (binary64.UUID s) := inferInstanceAs (Decidable (isUUID s = true))

example : decimal.string (-(251 / 2)) = "-125.5" ∧ decimal.double "0" = some (.finite 0) ∧
    decimal.double "" = none := by decide +kernel

/-- The sum of a tenth and one is rounded; an é may be one character or two. -/
example : binary64.double "1.1" = some (.finite (2476979795053773 / 2251799813685248)) ∧
    binary64.same "é" (String.ofList ['e', Char.ofNat 0x301]) := by decide +kernel

end Platform
end ZipR
