import ModuleLowering.Text.Numeral
import ModuleLowering.Tree.Operator
import Mathlib.Algebra.Order.Ring.Int

/-!
Double-precision numbers in exact arithmetic, with their sums and differences.

A finite double is a whole number of units of `2 ^ -1074`, the least that one can differ from
another by. The exact sum of two is such a number again, and is rounded once.
-/

set_option autoImplicit false

namespace ModuleLowering

-- Both are kept folded, so that no power of two with such an exponent is computed on the way.

/-- How many binary places the unit is behind the point. -/
@[irreducible] def Magnitude.places : Nat := 1074

/-- The most zeros that can follow the 53 bits of a double, counted in units. -/
@[irreducible] def Magnitude.mostZeros : Nat := 2045

def IsMagnitude (u : Nat) : Prop := ∃ m q, m < 2 ^ 53 ∧ q ≤ Magnitude.mostZeros ∧ u = m * 2 ^ q

structure Magnitude where
  units : Nat
  fits : IsMagnitude units
  deriving DecidableEq

namespace Magnitude

def limit : Nat := 2 ^ 53 * 2 ^ mostZeros

/-- The nearest number with 53 bits; a tie goes to the one whose last bit is zero. -/
def nearest (u : Nat) : Nat :=
  let last := 2 ^ (u.log2 - 52)
  let down := u / last
  if last < 2 * (u % last) ∨ 2 * (u % last) = last ∧ down % 2 = 1 then (down + 1) * last
    else down * last

end Magnitude

theorem IsMagnitude.lt_limit {u : Nat} (h : IsMagnitude u) : u < Magnitude.limit := by
  obtain ⟨m, q, bits, zeros, rfl⟩ := h
  calc m * 2 ^ q < 2 ^ 53 * 2 ^ q := Nat.mul_lt_mul_of_pos_right bits (Nat.two_pow_pos q)
    _ ≤ 2 ^ 53 * 2 ^ Magnitude.mostZeros :=
      Nat.mul_le_mul_left _ (Nat.pow_le_pow_right (by decide) zeros)

theorem IsMagnitude.of_lt {m q : Nat} (bits : m < 2 ^ 53) (small : m * 2 ^ q < Magnitude.limit) :
    IsMagnitude (m * 2 ^ q) := by
  rcases Nat.le_total q Magnitude.mostZeros with zeros | more
  · exact ⟨m, q, bits, zeros, rfl⟩
  · have split : m * 2 ^ q = m * 2 ^ (q - Magnitude.mostZeros) * 2 ^ Magnitude.mostZeros := by
      rw [Nat.mul_assoc, ← Nat.pow_add, Nat.sub_add_cancel more]
    rw [split] at small
    exact ⟨_, _, Nat.lt_of_mul_lt_mul_right small, Nat.le_refl _, split⟩

theorem IsMagnitude.lt_of_not_dvd {u k : Nat} (h : IsMagnitude u) (finer : ¬ 2 ^ k ∣ u) :
    u < 2 ^ (k + 52) := by
  obtain ⟨m, q, bits, -, rfl⟩ := h
  have fewer : q < k := Nat.lt_of_not_le fun zeros => finer ((Nat.pow_dvd_pow 2 zeros).mul_left m)
  calc m * 2 ^ q < 2 ^ 53 * 2 ^ q := Nat.mul_lt_mul_of_pos_right bits (Nat.two_pow_pos q)
    _ = 2 ^ (53 + q) := (Nat.pow_add 2 53 q).symm
    _ ≤ 2 ^ (k + 52) := Nat.pow_le_pow_right (by decide) (by omega)

namespace Magnitude

theorem div_lt (u : Nat) : u / 2 ^ (u.log2 - 52) < 2 ^ 53 := by
  rw [Nat.div_lt_iff_lt_mul (Nat.two_pow_pos _), ← Nat.pow_add]
  exact Nat.lt_of_lt_of_le Nat.lt_log2_self (Nat.pow_le_pow_right (by decide) (by omega))

theorem isMagnitude_nearest {u : Nat} (small : nearest u < limit) : IsMagnitude (nearest u) := by
  have bits := div_lt u
  unfold nearest at small ⊢
  dsimp only at small ⊢
  split at small
  · next up =>
    rw [if_pos up]
    rcases Nat.lt_or_ge (u / 2 ^ (u.log2 - 52) + 1) (2 ^ 53) with fewer | carried
    · exact .of_lt fewer small
    · -- All bits were ones, so that rounding up leaves a single one.
      have eq : u / 2 ^ (u.log2 - 52) + 1 = 2 ^ 53 := Nat.le_antisymm bits carried
      have next : 2 ^ 53 * 2 ^ (u.log2 - 52) = 2 ^ 52 * 2 ^ (u.log2 - 52 + 1) := by
        rw [← Nat.pow_add, ← Nat.pow_add]
        congr 1
        omega
      rw [eq, next] at small ⊢
      exact .of_lt (by decide) small
  · next down =>
    rw [if_neg down]
    exact .of_lt bits small

theorem nearest_of_dvd {u : Nat} (whole : 2 ^ (u.log2 - 52) ∣ u) : nearest u = u := by
  have positive := Nat.two_pow_pos (u.log2 - 52)
  simp only [nearest, Nat.mod_eq_zero_of_dvd whole]
  rw [if_neg (by omega)]
  exact Nat.div_mul_cancel whole

theorem nearest_of_isMagnitude {u : Nat} (fits : IsMagnitude u) : nearest u = u := by
  obtain ⟨m, q, bits, -, rfl⟩ := fits
  apply nearest_of_dvd
  rcases Nat.eq_zero_or_pos m with rfl | positive
  · simp
  · have nonzero : m * 2 ^ q ≠ 0 := Nat.mul_ne_zero (by omega) (Nat.two_pow_pos q).ne'
    have size : (m * 2 ^ q).log2 < 53 + q := by
      rw [Nat.log2_lt nonzero, Nat.pow_add]
      exact Nat.mul_lt_mul_of_pos_right bits (Nat.two_pow_pos q)
    exact Nat.dvd_trans (Nat.pow_dvd_pow 2 (by omega)) (Nat.dvd_mul_left _ m)

theorem dvd_nearest_of_le {u k : Nat} (large : 2 ^ (k + 52) ≤ u) : 2 ^ k ∣ nearest u := by
  have size : k + 52 ≤ u.log2 :=
    (Nat.le_log2 (by have := Nat.two_pow_pos (k + 52); omega)).mpr large
  have last : 2 ^ k ∣ 2 ^ (u.log2 - 52) := Nat.pow_dvd_pow 2 (by omega)
  unfold nearest
  dsimp only
  split
  · exact last.mul_left _
  · exact last.mul_left _

theorem dvd_nearest {u k : Nat} (multiple : 2 ^ k ∣ u) : 2 ^ k ∣ nearest u := by
  rcases Nat.lt_or_ge u (2 ^ (k + 52)) with small | large
  · have size : u.log2 - 52 ≤ k := by
      rcases Nat.eq_zero_or_pos u with rfl | positive
      · simp
      · have := (Nat.log2_lt (by omega)).mpr small
        omega
    rwa [nearest_of_dvd (Nat.dvd_trans (Nat.pow_dvd_pow 2 size) multiple)]
  · exact dvd_nearest_of_le large

end Magnitude

inductive Double where
  | nan
  | infinite (isNegative : Bool)
  | finite (isNegative : Bool) (magnitude : Magnitude)
  deriving DecidableEq

namespace Double

def ofUnits (isNegative : Bool) (u : Nat) : Double :=
  if small : Magnitude.nearest u < Magnitude.limit then
    .finite isNegative ⟨Magnitude.nearest u, Magnitude.isMagnitude_nearest small⟩
  else .infinite isNegative

def ofNumeral : Numeral → Double
  | .finite m q => ofUnits false (m * 2 ^ (q + Magnitude.places).toNat)
  | .infinite => .infinite false

def ofInt (z : Int) : Double := ofUnits (z < 0) (z * 2 ^ Magnitude.places).natAbs

def one : Double := ofInt 1

def negated : Double → Double
  | .nan => .nan
  | .infinite isNegative => .infinite !isNegative
  | .finite isNegative u => .finite (!isNegative) u

def signed (isNegative : Bool) (u : Magnitude) : Int := if isNegative then -u.units else u.units

def add : Double → Double → Double
  | .nan, _ | _, .nan => .nan
  | .infinite a, .infinite b => if a = b then .infinite a else .nan
  | .infinite a, .finite _ _ => .infinite a
  | .finite _ _, .infinite b => .infinite b
  | .finite a u, .finite b v =>
    let sum := signed a u + signed b v
    -- A sum that is zero is negative only if both of its terms are.
    ofUnits (if sum = 0 then a && b else sum < 0) sum.natAbs

def subtract (x y : Double) : Double := x.add y.negated

end Double

def UpdateOp.amount : UpdateOp → Int
  | .increment => 1
  | .decrement => -1

def UpdateOp.opposite : UpdateOp → UpdateOp
  | .increment => .decrement
  | .decrement => .increment

namespace Double

def stepped (op : UpdateOp) (x : Double) : Double :=
  match op with
  | .increment => x.add one
  | .decrement => x.subtract one

def Returns (op : UpdateOp) (x : Double) : Prop := (x.stepped op).stepped op.opposite = x

instance (op : UpdateOp) (x : Double) : Decidable (Returns op x) :=
  inferInstanceAs (Decidable ((x.stepped op).stepped op.opposite = x))

theorem ofUnits_of_isMagnitude (isNegative : Bool) {u : Nat} (fits : IsMagnitude u) :
    ofUnits isNegative u = .finite isNegative ⟨u, fits⟩ := by
  have same := Magnitude.nearest_of_isMagnitude fits
  have small : Magnitude.nearest u < Magnitude.limit := by rw [same]; exact fits.lt_limit
  rw [ofUnits, dif_pos small]
  simp only [same]

/-- The double that is a number of units. The negative zero is the only finite one that is not of
this kind. -/
def exactly (z : Int) (fits : IsMagnitude z.natAbs) : Double := .finite (z < 0) ⟨z.natAbs, fits⟩

theorem signed_exactly (z : Int) (fits : IsMagnitude z.natAbs) :
    signed (z < 0) ⟨z.natAbs, fits⟩ = z := by
  unfold signed
  by_cases negative : z < 0
  · simp only [negative, decide_true, if_true]
    omega
  · simp only [negative, decide_false, Bool.false_eq_true, if_false]
    omega

theorem add_exactly {x y : Int} (left : IsMagnitude x.natAbs) (right : IsMagnitude y.natAbs)
    (sum : IsMagnitude (x + y).natAbs) : (exactly x left).add (exactly y right) = exactly
    (x + y) sum := by
  simp only [exactly, add, signed_exactly]
  rw [ofUnits_of_isMagnitude _ sum]
  congr 1
  split
  · next zero =>
    -- One of the terms is not negative.
    have : ¬ (x < 0 ∧ y < 0) := by omega
    simpa [zero, ← Bool.decide_and] using this
  · rfl

theorem isMagnitude_int {z : Int} (safe : z.natAbs ≤ 2 ^ 53) :
    IsMagnitude (z * 2 ^ Magnitude.places).natAbs := by
  have units : (z * 2 ^ Magnitude.places).natAbs = z.natAbs * 2 ^ Magnitude.places := by
    rw [Int.natAbs_mul, Int.natAbs_pow]
    simp
  rw [units]
  have room : Magnitude.places + 1 ≤ Magnitude.mostZeros := by
    unfold Magnitude.places Magnitude.mostZeros
    decide
  rcases Nat.lt_or_eq_of_le safe with fewer | carried
  · exact ⟨_, _, fewer, Nat.le_of_succ_le room, rfl⟩
  · have bits : 53 + Magnitude.places = 52 + (Magnitude.places + 1) := by omega
    refine ⟨2 ^ 52, Magnitude.places + 1, by decide, room, ?_⟩
    rw [carried, ← Nat.pow_add, bits, Nat.pow_add]

theorem ofInt_eq_exactly {z : Int} (safe : z.natAbs ≤ 2 ^ 53) :
    ofInt z = exactly _ (isMagnitude_int safe) := by
  have unit : (0 : Int) < 2 ^ Magnitude.places := Int.pow_pos (by decide)
  have sign : z * 2 ^ Magnitude.places < 0 ↔ z < 0 :=
    ⟨fun h => neg_of_mul_neg_left h unit.le, fun h => mul_neg_of_neg_of_pos h unit⟩
  rw [ofInt, ofUnits_of_isMagnitude _ (isMagnitude_int safe)]
  simp only [exactly, sign]

theorem stepped_eq_add (op : UpdateOp) (x : Double) : x.stepped op = x.add (ofInt op.amount) := by
  cases op with
  | increment => rfl
  | decrement =>
    have minus : one.negated = ofInt (-1) := by decide +kernel
    rw [stepped, subtract, minus]
    rfl

theorem ofInt_amount (op : UpdateOp) :
    ∃ fits, ofInt op.amount = exactly (op.amount * 2 ^ Magnitude.places) fits :=
  ⟨_, ofInt_eq_exactly (by cases op <;> decide)⟩

theorem returns_exactly {z : Int} (op : UpdateOp) (fits : IsMagnitude z.natAbs)
    (next : IsMagnitude (z + op.amount * 2 ^ Magnitude.places).natAbs) :
    Returns op (exactly z fits) := by
  have back : z + op.amount * 2 ^ Magnitude.places + op.opposite.amount * 2 ^
    Magnitude.places = z := by
    cases op <;> simp [UpdateOp.amount, UpdateOp.opposite]
  obtain ⟨fits₁, forth⟩ := ofInt_amount op
  obtain ⟨fits₂, forthBack⟩ := ofInt_amount op.opposite
  rw [Returns, stepped_eq_add, stepped_eq_add, forth, forthBack, add_exactly _ _ next,
    add_exactly _ _ (back.symm ▸ fits)]
  simp only [back]

theorem returns_ofInt {z : Int} (op : UpdateOp) (safe : z.natAbs < 2 ^ 53) :
    Returns op (ofInt z) := by
  have within : (z + op.amount).natAbs ≤ 2 ^ 53 := by
    cases op <;> simp only [UpdateOp.amount] <;> omega
  have next := isMagnitude_int within
  rw [ofInt_eq_exactly safe.le]
  rw [Int.add_mul] at next
  exact returns_exactly op _ next

def HasPlaces (k : Nat) : Double → Prop
  | .finite _ u => 2 ^ (Magnitude.places - k) ∣ u.units
  | _ => True

theorem hasPlaces_ofUnits {k : Nat} (isNegative : Bool) {u : Nat}
    (multiple : 2 ^ (Magnitude.places - k) ∣ Magnitude.nearest u) :
    (ofUnits isNegative u).HasPlaces k := by
  unfold ofUnits
  split
  · exact multiple
  · trivial

theorem dvd_signed {k : Nat} (isNegative : Bool) {u : Magnitude} (multiple : 2 ^ k ∣ u.units) :
    ((2 ^ k : Nat) : Int) ∣ signed isNegative u := by
  have units : ((2 ^ k : Nat) : Int) ∣ u.units := Int.natCast_dvd_natCast.mpr multiple
  unfold signed
  split
  · exact Int.dvd_neg.mpr units
  · exact units

theorem HasPlaces.add {k : Nat} {x y : Double} (left : x.HasPlaces k) (right : y.HasPlaces k) :
    (x.add y).HasPlaces k := by
  cases x with
  | nan => trivial
  | infinite a =>
    cases y with
    | nan | finite => trivial
    | infinite b =>
      simp only [Double.add]
      split <;> trivial
  | finite a u =>
    cases y with
    | nan | infinite => trivial
    | finite b v =>
      apply hasPlaces_ofUnits
      apply Magnitude.dvd_nearest
      exact Int.natCast_dvd.mp (Int.dvd_add (dvd_signed a left) (dvd_signed b right))

theorem hasPlaces_amount (op : UpdateOp) : (ofInt op.amount).HasPlaces 53 := by
  obtain ⟨fits, eq⟩ := ofInt_amount op
  rw [eq]
  show 2 ^ (Magnitude.places - 53) ∣ (op.amount * 2 ^ Magnitude.places).natAbs
  apply Int.natCast_dvd.mp
  push_cast
  exact (pow_dvd_pow 2 (Nat.sub_le _ _)).mul_left _

/-- A number with more places is less than a half, so that it loses them in a step. -/
theorem hasPlaces_stepped {op : UpdateOp} {x : Double} (finer : ¬ x.HasPlaces 53) :
    (x.stepped op).HasPlaces 53 := by
  cases x with
  | nan | infinite => exact absurd trivial finer
  | finite a u =>
    obtain ⟨fits, eq⟩ := ofInt_amount op
    have less := u.fits.lt_of_not_dvd finer
    rw [stepped_eq_add, eq]
    apply hasPlaces_ofUnits
    apply Magnitude.dvd_nearest_of_le
    rw [signed_exactly]
    have size : (signed a u).natAbs = u.units := by
      unfold signed
      split <;> simp
    have whole : (2 : Int) ^ Magnitude.places = 2 * (2 ^ (Magnitude.places - 53 + 52) : Nat) := by
      have place : Magnitude.places = Magnitude.places - 53 + 52 + 1 := by
        unfold Magnitude.places
        rfl
      push_cast
      rw [← pow_succ', ← place]
    rw [whole]
    generalize 2 ^ (Magnitude.places - 53 + 52) = half at less ⊢
    cases op <;> simp only [UpdateOp.amount] <;> omega

theorem hasPlaces_of_returns {op : UpdateOp} {x : Double} (returns : x.Returns op) :
    x.HasPlaces 53 := by
  by_contra finer
  have back : ((x.stepped op).stepped op.opposite).HasPlaces 53 := by
    rw [stepped_eq_add]
    exact (hasPlaces_stepped finer).add (hasPlaces_amount _)
  rw [returns] at back
  exact finer back

def negativeZero : Double := (ofInt 0).negated

theorem not_returns_negativeZero (op : UpdateOp) : ¬ negativeZero.Returns op := by
  cases op <;> decide +kernel

end Double

end ModuleLowering
