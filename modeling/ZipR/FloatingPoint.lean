import Mathlib.Data.Int.Log
import Mathlib.Data.Rat.Floor
import Mathlib.Order.WithBot
import Mathlib.Tactic.Linarith

/-! # Floating-point numbers

Numbers with infinities and a NaN, over the rationals, and rounding to a binary format.

* **Values.** A `Value` is a rational, an infinity or NaN; the sign of a zero is not kept.  The
  comparisons are those of IEEE 754: NaN compares with nothing, itself included.  On the other
  values they are the order of `key`.
* **Rounding.** A `Rounding` takes exact results to values and is monotone.  Addition and
  subtraction are exact, then rounded.
* **Formats.** `Format.rounding` rounds to nearest, ties to even, with gradual underflow and with
  overflow to infinity.  `Format.roundMagnitude_mono`: within one binade it rounds on one grid, and
  a power of two between two binades lies on the grids of both. -/

namespace FloatingPoint

inductive Value where
  | nan
  | infinity (negative : Bool)
  | finite (x : ℚ)
deriving DecidableEq, Repr

namespace Value

def le : Value → Value → Prop
  | nan, _ | _, nan => False
  | infinity true, _ | _, infinity false => True
  | infinity false, _ | _, infinity true => False
  | finite x, finite y => x ≤ y

instance : LE Value := ⟨le⟩

instance : LT Value := ⟨fun a b => a ≤ b ∧ ¬ b ≤ a⟩

instance decidableLe (a b : Value) : Decidable (a ≤ b) :=
  match a, b with
  | nan, nan | nan, infinity _ | nan, finite _ | infinity _, nan | finite _, nan
  | infinity false, infinity true | infinity false, finite _ | finite _, infinity true => isFalse id
  | infinity true, infinity true | infinity true, infinity false | infinity true, finite _
  | infinity false, infinity false | finite _, infinity false => isTrue trivial
  | finite x, finite y => inferInstanceAs (Decidable (x ≤ y))

instance decidableLt (a b : Value) : Decidable (a < b) :=
  inferInstanceAs (Decidable (a ≤ b ∧ ¬ b ≤ a))

theorem lt_iff {a b : Value} : a < b ↔ a ≤ b ∧ ¬ b ≤ a := Iff.rfl

@[simp] theorem finite_le_finite {x y : ℚ} : finite x ≤ finite y ↔ x ≤ y := Iff.rfl

@[simp] theorem not_nan_le (a : Value) : ¬ nan ≤ a := by
  cases a <;> exact id

@[simp] theorem not_le_nan (a : Value) : ¬ a ≤ nan := by
  cases a with
  | nan | finite _ => exact id
  | infinity negative => cases negative <;> exact id

@[simp] theorem negative_le {a : Value} : infinity true ≤ a ↔ a ≠ nan := by
  cases a with
  | nan => exact iff_of_false id (fun h => h rfl)
  | infinity negative => cases negative <;> exact iff_of_true trivial (by simp)
  | finite x => exact iff_of_true trivial (by simp)

@[simp] theorem le_positive {a : Value} : a ≤ infinity false ↔ a ≠ nan := by
  cases a with
  | nan => exact iff_of_false id (fun h => h rfl)
  | infinity negative => cases negative <;> exact iff_of_true trivial (by simp)
  | finite x => exact iff_of_true trivial (by simp)

@[simp] theorem not_finite_le_negative (x : ℚ) : ¬ finite x ≤ infinity true := id

@[simp] theorem not_positive_le_finite (x : ℚ) : ¬ infinity false ≤ finite x := id

@[simp] theorem not_positive_le_negative : ¬ infinity false ≤ infinity true := id

/-- Where a value stands among the others; NaN has no place of its own. -/
def key : Value → WithBot (WithTop ℚ)
  | nan | infinity true => ⊥
  | infinity false => (⊤ : WithTop ℚ)
  | finite x => ((x : WithTop ℚ) : WithBot (WithTop ℚ))

/-- **Numbers are in the order of their keys.** -/
theorem le_iff_key {a b : Value} (ha : a ≠ nan) (hb : b ≠ nan) : a ≤ b ↔ a.key ≤ b.key := by
  cases a with
  | nan => exact absurd rfl ha
  | infinity s =>
      cases b with
      | nan => exact absurd rfl hb
      | infinity t => cases s <;> cases t <;> simp [key]
      | finite y => cases s <;> simp [key]
  | finite x =>
      cases b with
      | nan => exact absurd rfl hb
      | infinity t => cases t <;> simp [key]
      | finite y => simp [key]

theorem lt_iff_key {a b : Value} (ha : a ≠ nan) (hb : b ≠ nan) : a < b ↔ a.key < b.key := by
  rw [lt_iff, le_iff_key ha hb, le_iff_key hb ha, lt_iff_le_not_ge]

theorem key_injective {a b : Value} (ha : a ≠ nan) (hb : b ≠ nan) (h : a.key = b.key) : a = b := by
  cases a with
  | nan => exact absurd rfl ha
  | infinity s =>
      cases b with
      | nan => exact absurd rfl hb
      | infinity t => cases s <;> cases t <;> simp [key] at h ⊢
      | finite y => cases s <;> simp [key] at h
  | finite x =>
      cases b with
      | nan => exact absurd rfl hb
      | infinity t => cases t <;> simp [key] at h
      | finite y => simpa [key] using h

theorem not_nan_lt (a : Value) : ¬ nan < a := fun h => not_nan_le a h.1

theorem not_lt_nan (a : Value) : ¬ a < nan := fun h => not_le_nan a h.1

theorem antisymm {a b : Value} (hab : a ≤ b) (hba : b ≤ a) : a = b := by
  have ha : a ≠ nan := fun he => not_nan_le b (he ▸ hab)
  have hb : b ≠ nan := fun he => not_nan_le a (he ▸ hba)
  exact key_injective ha hb (le_antisymm ((le_iff_key ha hb).mp hab) ((le_iff_key hb ha).mp hba))

/-- Numerical equality: NaN is equal to nothing. -/
def equals (a b : Value) : Bool := a ≠ nan ∧ a = b

theorem equals_comm (a b : Value) : a.equals b = b.equals a := by
  unfold equals
  by_cases h : a = b
  · rw [h]
  · simp [h, Ne.symm h]

end Value

/-! ### Rounding -/

/-- How exact results become values. -/
structure Rounding where
  round : ℚ → Value
  mono : ∀ {x y}, x ≤ y → round x ≤ round y

namespace Rounding

/-- Every rational is a value. -/
def exact : Rounding where
  round := .finite
  mono h := h

section
variable (R : Rounding)

def add : Value → Value → Value
  | .nan, _ | _, .nan => .nan
  | .infinity s, .infinity t => if s = t then .infinity s else .nan
  | .infinity s, .finite _ | .finite _, .infinity s => .infinity s
  | .finite x, .finite y => R.round (x + y)

def sub : Value → Value → Value
  | .nan, _ | _, .nan => .nan
  | .infinity s, .infinity t => if s = t then .nan else .infinity s
  | .infinity s, .finite _ => .infinity s
  | .finite _, .infinity s => .infinity !s
  | .finite x, .finite y => R.round (x - y)

@[simp] theorem add_finite (x y : ℚ) : R.add (.finite x) (.finite y) = R.round (x + y) := rfl

@[simp] theorem sub_finite (x y : ℚ) : R.sub (.finite x) (.finite y) = R.round (x - y) := rfl

end

variable {R : Rounding}

/-- Adding a positive number does not fall below a value that is not rounded. -/
theorem le_add {x y : ℚ} (hx : R.round x = .finite x) (hy : 0 ≤ y) :
    .finite x ≤ R.add (.finite x) (.finite y) := by
  have hle := R.mono (show x ≤ x + y by linarith)
  rwa [hx] at hle

theorem sub_le {x y : ℚ} (hx : R.round x = .finite x) (hy : 0 ≤ y) :
    R.sub (.finite x) (.finite y) ≤ .finite x := by
  have hle := R.mono (show x - y ≤ x by linarith)
  rwa [hx] at hle

end Rounding

/-! ### Ties to even -/

/-- The nearest integer, the even one of two. -/
def nearestEven (q : ℚ) : ℤ :=
  if q - ⌊q⌋ < 1 / 2 then ⌊q⌋
  else if 1 / 2 < q - ⌊q⌋ then ⌊q⌋ + 1
  else ⌊q⌋ + ⌊q⌋ % 2

theorem nearestEven_bounds (q : ℚ) : ⌊q⌋ ≤ nearestEven q ∧ nearestEven q ≤ ⌊q⌋ + 1 := by
  unfold nearestEven
  split
  · omega
  · split <;> omega

theorem le_nearestEven {n : ℤ} {q : ℚ} (h : (n : ℚ) ≤ q) : n ≤ nearestEven q :=
  (Int.le_floor.mpr h).trans (nearestEven_bounds q).1

theorem nearestEven_intCast (n : ℤ) : nearestEven n = n := by
  simp [nearestEven]

theorem nearestEven_le {n : ℤ} {q : ℚ} (h : q ≤ n) : nearestEven q ≤ n := by
  rcases h.eq_or_lt with rfl | hlt
  · exact (nearestEven_intCast n).le
  · have hfloor : ⌊q⌋ < n := Int.floor_lt.mpr hlt
    have := (nearestEven_bounds q).2
    omega

theorem nearestEven_mono {p q : ℚ} (h : p ≤ q) : nearestEven p ≤ nearestEven q := by
  rcases (Int.floor_mono h).eq_or_lt with hfloor | hfloor
  · unfold nearestEven
    rw [hfloor]
    have hsub : p - ⌊q⌋ ≤ q - ⌊q⌋ := by linarith
    split
    · split
      · exact le_refl _
      · split <;> omega
    · rw [if_neg (show ¬ q - ⌊q⌋ < 1 / 2 by linarith)]
      split
      · rw [if_pos (show 1 / 2 < q - ⌊q⌋ by linarith)]
      · split <;> omega
  · have h₁ := (nearestEven_bounds p).2
    have h₂ := (nearestEven_bounds q).1
    omega

/-! ### Binary formats -/

/-- A binary format: the digits of a significand, and the exponents of the smallest positive number
and of the first power of two that is too large. -/
structure Format where
  precision : ℕ
  minExponent : ℤ
  maxExponent : ℤ
  precision_pos : 0 < precision

namespace Format

/-- `Double`. -/
def binary64 : Format := ⟨53, -1074, 1024, by decide⟩

section
variable (f : Format)

/-- The exponent of the last digit. -/
def exponent (x : ℚ) : ℤ := max f.minExponent (Int.log 2 x - f.precision + 1)

/-- Rounding on the grid of the last digit. -/
def roundMagnitude (x : ℚ) : ℚ := nearestEven (x / 2 ^ f.exponent x) * 2 ^ f.exponent x

def roundRational (x : ℚ) : ℚ := if x < 0 then -f.roundMagnitude (-x) else f.roundMagnitude x

def round (x : ℚ) : Value :=
  if 2 ^ f.maxExponent ≤ f.roundRational x then .infinity false
  else if f.roundRational x ≤ -2 ^ f.maxExponent then .infinity true
  else .finite (f.roundRational x)

end

variable {f : Format}

/-- A power of two that is not below the last digit lies on the grid. -/
theorem zpow_grid {e k : ℤ} (h : e ≤ k) : (2 : ℚ) ^ k = ((2 ^ (k - e).toNat : ℤ) : ℚ) * 2 ^ e := by
  push_cast
  rw [← zpow_natCast, ← zpow_add₀ two_ne_zero]
  congr 1
  omega

theorem le_roundMagnitude {x : ℚ} {k : ℤ} (hk : f.exponent x ≤ k) (h : 2 ^ k ≤ x) :
    2 ^ k ≤ f.roundMagnitude x := by
  have hpos : (0 : ℚ) < 2 ^ f.exponent x := zpow_pos two_pos _
  have hle : (2 ^ (k - f.exponent x).toNat : ℤ) ≤ nearestEven (x / 2 ^ f.exponent x) := by
    refine le_nearestEven ?_
    rwa [le_div_iff₀ hpos, ← zpow_grid hk]
  rw [zpow_grid hk, roundMagnitude]
  exact mul_le_mul_of_nonneg_right (by exact_mod_cast hle) hpos.le

theorem roundMagnitude_le {x : ℚ} {k : ℤ} (hk : f.exponent x ≤ k) (h : x ≤ 2 ^ k) :
    f.roundMagnitude x ≤ 2 ^ k := by
  have hpos : (0 : ℚ) < 2 ^ f.exponent x := zpow_pos two_pos _
  have hle : nearestEven (x / 2 ^ f.exponent x) ≤ (2 ^ (k - f.exponent x).toNat : ℤ) := by
    refine nearestEven_le ?_
    rwa [div_le_iff₀ hpos, ← zpow_grid hk]
  rw [zpow_grid hk, roundMagnitude]
  exact mul_le_mul_of_nonneg_right (by exact_mod_cast hle) hpos.le

theorem roundMagnitude_nonneg {x : ℚ} (hx : 0 ≤ x) : 0 ≤ f.roundMagnitude x := by
  have hpos : (0 : ℚ) < 2 ^ f.exponent x := zpow_pos two_pos _
  have hle : 0 ≤ nearestEven (x / 2 ^ f.exponent x) :=
    le_nearestEven (by simpa using div_nonneg hx hpos.le)
  exact mul_nonneg (by exact_mod_cast hle) hpos.le

/-- **Rounding magnitudes is monotone.** -/
theorem roundMagnitude_mono {x y : ℚ} (hx : 0 ≤ x) (hxy : x ≤ y) :
    f.roundMagnitude x ≤ f.roundMagnitude y := by
  rcases hx.eq_or_lt with rfl | hx
  · have hzero : f.roundMagnitude 0 = 0 := by
      simp [roundMagnitude, nearestEven]
    rw [hzero]
    exact roundMagnitude_nonneg hxy
  · have hlog : Int.log 2 x ≤ Int.log 2 y := Int.log_mono_right hx hxy
    have hp := f.precision_pos
    by_cases he : f.exponent x = f.exponent y
    · -- one grid
      have hpos : (0 : ℚ) < 2 ^ f.exponent y := zpow_pos two_pos _
      have hle : nearestEven (x / 2 ^ f.exponent y) ≤ nearestEven (y / 2 ^ f.exponent y) :=
        nearestEven_mono (div_le_div_of_nonneg_right hxy hpos.le)
      rw [roundMagnitude, roundMagnitude, he]
      exact mul_le_mul_of_nonneg_right (by exact_mod_cast hle) hpos.le
    · -- the power of two at which the binade of `y` begins
      have hexp : f.exponent x < f.exponent y ∧ f.exponent y ≤ Int.log 2 y ∧
          Int.log 2 x < Int.log 2 y := by
        unfold exponent at he ⊢
        omega
      obtain ⟨hlt, htop, hlog⟩ := hexp
      have hbelow : x ≤ 2 ^ Int.log 2 y := by
        have hsucc := Int.lt_zpow_succ_log_self (one_lt_two : 1 < 2) x
        have hpow : (2 : ℚ) ^ (Int.log 2 x + 1) ≤ 2 ^ Int.log 2 y :=
          zpow_le_zpow_right₀ one_le_two hlog
        exact (hsucc.trans_le (by exact_mod_cast hpow)).le
      have habove : (2 : ℚ) ^ Int.log 2 y ≤ y := by
        exact_mod_cast Int.zpow_log_le_self (one_lt_two : 1 < 2) (hx.trans_le hxy)
      calc f.roundMagnitude x ≤ 2 ^ Int.log 2 y := roundMagnitude_le (hlt.le.trans htop) hbelow
        _ ≤ f.roundMagnitude y := le_roundMagnitude htop habove

theorem roundRational_mono {x y : ℚ} (hxy : x ≤ y) : f.roundRational x ≤ f.roundRational y := by
  unfold roundRational
  by_cases hx : x < 0
  · rw [if_pos hx]
    by_cases hy : y < 0
    · rw [if_pos hy]
      exact neg_le_neg (roundMagnitude_mono (by linarith) (by linarith))
    · rw [if_neg hy]
      have h₁ : 0 ≤ f.roundMagnitude (-x) := roundMagnitude_nonneg (by linarith)
      have h₂ : 0 ≤ f.roundMagnitude y := roundMagnitude_nonneg (by linarith)
      linarith
  · rw [if_neg hx, if_neg (by linarith)]
    exact roundMagnitude_mono (by linarith) hxy

variable (f) in
/-- Rounding to nearest. -/
def rounding : Rounding where
  round := f.round
  mono {x y} hxy := by
    have hle : f.roundRational x ≤ f.roundRational y := roundRational_mono hxy
    have hpos : (0 : ℚ) < 2 ^ f.maxExponent := zpow_pos two_pos _
    unfold round
    by_cases h₁ : 2 ^ f.maxExponent ≤ f.roundRational x
    · rw [if_pos h₁, if_pos (h₁.trans hle)]
      simp
    · rw [if_neg h₁]
      by_cases h₂ : f.roundRational x ≤ -2 ^ f.maxExponent
      · rw [if_pos h₂, Value.negative_le]
        split
        · simp
        · split <;> simp
      · rw [if_neg h₂]
        split
        · simp
        · rw [if_neg (by linarith)]
          simpa using hle

/-- A tenth is not exact; what is too large overflows, what is too small vanishes. -/
example : binary64.round (1 / 10) = .finite (3602879701896397 / 36028797018963968) ∧
    binary64.round (2 ^ 1024) = .infinity false ∧ binary64.round (1 / 2 ^ 1075) = .finite 0 := by
  decide +kernel

end Format
end FloatingPoint
