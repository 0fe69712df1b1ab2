import Mathlib

/-!
# Two-word signed integers

`include/qemu/int128.h` : a 128-bit signed integer kept as an unsigned low word and a
signed high word. `Int128.ofInt` wraps an integer into the type. Sums and differences are
exact modulo `2 ^ 128` (`Int128.add_ofInt`, `Int128.sub_ofInt`); comparisons, and the
assertion of `int128_get64`, agree with those on the integers for values in range
(`Int128.ge_ofInt`, `Int128.get64_ofInt`).

`AddressArith` collects the operations that address computations use, so that code over
`Int128` and the same code over the integers are two instances of one definition.
-/

namespace QemuArm

/-- `hwaddr` and `uint64_t`. -/
abbrev Hwaddr := BitVec 64

/-- `struct Int128`. -/
@[ext]
structure Int128 where
  lo : BitVec 64
  hi : BitVec 64
deriving DecidableEq, Repr

namespace Int128

/-! ## The operations of the header -/

def make64 (a : Hwaddr) : Int128 := ⟨a, 0⟩

/-- The low word; the assertion wants the high word to be zero. -/
def get64 (a : Int128) : Option Hwaddr := if a.hi = 0 then some a.lo else none

def zero : Int128 := make64 0

/-- `int128_2_64`. -/
def two64 : Int128 := ⟨0, 1⟩

def add (a b : Int128) : Int128 :=
  let lo := a.lo + b.lo
  ⟨lo, a.hi + b.hi + if lo < a.lo then 1 else 0⟩

def sub (a b : Int128) : Int128 :=
  ⟨a.lo - b.lo, a.hi - b.hi - if a.lo < b.lo then 1 else 0⟩

/-- `int128_ge` : the high words compare as signed, the low words as unsigned numbers. -/
def ge (a b : Int128) : Bool := b.hi.slt a.hi || (a.hi == b.hi && decide (b.lo ≤ a.lo))

/-! ## Integers -/

/-- The integer that the two words denote. -/
def toInt (a : Int128) : ℤ := a.hi.toInt * 2 ^ 64 + a.lo.toNat

/-- Wrap an integer into the two words. -/
def ofInt (z : ℤ) : Int128 := ⟨BitVec.ofInt 64 z, BitVec.ofInt 64 (z / 2 ^ 64)⟩

/-- The integers that fit. -/
def InRange (z : ℤ) : Prop := -2 ^ 127 ≤ z ∧ z < 2 ^ 127

theorem toNat_ofInt_64 (z : ℤ) : ((BitVec.ofInt 64 z).toNat : ℤ) = z % 2 ^ 64 := by
  exact Int.toNat_of_nonneg (Int.emod_nonneg _ (by decide))

theorem toInt_ofInt_64 {z : ℤ} (h1 : -2 ^ 63 ≤ z) (h2 : z < 2 ^ 63) :
    (BitVec.ofInt 64 z).toInt = z := by
  rw [BitVec.toInt_ofInt, Int.bmod_eq_of_le] <;> omega

theorem toInt_ofInt {z : ℤ} (h : InRange z) : (ofInt z).toInt = z := by
  obtain ⟨h1, h2⟩ := h
  unfold toInt ofInt
  rw [toNat_ofInt_64, toInt_ofInt_64 (by omega) (by omega)]
  omega

theorem ofInt_toInt (a : Int128) : ofInt a.toInt = a := by
  have hdiv : (a.hi.toInt * 2 ^ 64 + (a.lo.toNat : ℤ)) / 2 ^ 64 = a.hi.toInt := by omega
  refine Int128.ext ?_ ?_
  · refine BitVec.eq_of_toNat_eq ?_
    have := toNat_ofInt_64 a.toInt
    have hmod : a.toInt % 2 ^ 64 = a.lo.toNat := by
      rw [toInt]
      omega
    rw [hmod] at this
    exact_mod_cast this
  · show BitVec.ofInt 64 (a.toInt / 2 ^ 64) = a.hi
    rw [toInt, hdiv, BitVec.ofInt_toInt]

theorem ofInt_make64 (a : Hwaddr) : ofInt a.toNat = make64 a := by
  rw [← ofInt_toInt (make64 a)]
  congr 1
  simp [toInt, make64]

theorem ofInt_lt_iff {x y : ℤ} :
    BitVec.ofInt 64 x < BitVec.ofInt 64 y ↔ x % 2 ^ 64 < y % 2 ^ 64 := by
  rw [BitVec.lt_def, ← toNat_ofInt_64, ← toNat_ofInt_64]
  omega

theorem ofInt_sub_64 (x y : ℤ) :
    BitVec.ofInt 64 (x - y) = BitVec.ofInt 64 x - BitVec.ofInt 64 y := by
  rw [eq_sub_iff_add_eq, ← BitVec.ofInt_add, sub_add_cancel]

/-- Addition is exact up to wrapping. -/
theorem add_ofInt (x y : ℤ) : add (ofInt x) (ofInt y) = ofInt (x + y) := by
  refine Int128.ext (BitVec.ofInt_add x y).symm ?_
  show BitVec.ofInt 64 (x / 2 ^ 64) + BitVec.ofInt 64 (y / 2 ^ 64) +
    (if BitVec.ofInt 64 x + BitVec.ofInt 64 y < BitVec.ofInt 64 x then 1 else 0) =
      BitVec.ofInt 64 ((x + y) / 2 ^ 64)
  by_cases h : (x + y) % 2 ^ 64 < x % 2 ^ 64
  · rw [if_pos (by rwa [← BitVec.ofInt_add, ofInt_lt_iff]),
      show (x + y) / 2 ^ 64 = x / 2 ^ 64 + y / 2 ^ 64 + 1 by omega, BitVec.ofInt_add,
      BitVec.ofInt_add]
    rfl
  · rw [if_neg (by rwa [← BitVec.ofInt_add, ofInt_lt_iff]),
      show (x + y) / 2 ^ 64 = x / 2 ^ 64 + y / 2 ^ 64 by omega, BitVec.ofInt_add, add_zero]

/-- Subtraction is exact up to wrapping. -/
theorem sub_ofInt (x y : ℤ) : sub (ofInt x) (ofInt y) = ofInt (x - y) := by
  refine Int128.ext (ofInt_sub_64 x y).symm ?_
  show BitVec.ofInt 64 (x / 2 ^ 64) - BitVec.ofInt 64 (y / 2 ^ 64) -
    (if BitVec.ofInt 64 x < BitVec.ofInt 64 y then 1 else 0) = BitVec.ofInt 64 ((x - y) / 2 ^ 64)
  by_cases h : x % 2 ^ 64 < y % 2 ^ 64
  · rw [if_pos (ofInt_lt_iff.2 h), show (x - y) / 2 ^ 64 = x / 2 ^ 64 - y / 2 ^ 64 - 1 by omega,
      ofInt_sub_64, ofInt_sub_64]
    rfl
  · rw [if_neg (mt ofInt_lt_iff.1 h), show (x - y) / 2 ^ 64 = x / 2 ^ 64 - y / 2 ^ 64 by omega,
      ofInt_sub_64, sub_zero]

/-- The comparison is the one of the integers. -/
theorem ge_iff (a b : Int128) : ge a b = true ↔ b.toInt ≤ a.toInt := by
  rw [ge, Bool.or_eq_true, Bool.and_eq_true, BitVec.slt_iff_toInt_lt, beq_iff_eq,
    decide_eq_true_eq, BitVec.le_def, ← BitVec.toInt_inj, toInt, toInt]
  omega

theorem ge_ofInt {x y : ℤ} (hx : InRange x) (hy : InRange y) :
    ge (ofInt x) (ofInt y) = decide (y ≤ x) := by
  rw [Bool.eq_iff_iff, ge_iff, toInt_ofInt hx, toInt_ofInt hy, decide_eq_true_eq]

theorem ofInt_inj {x y : ℤ} (hx : InRange x) (hy : InRange y) : ofInt x = ofInt y ↔ x = y := by
  constructor
  · intro h
    rw [← toInt_ofInt hx, ← toInt_ofInt hy, h]
  · rintro rfl
    rfl

/-- `int128_get64` reads a value of 64 bits and fails on any other. -/
theorem get64_ofInt {x : ℤ} (hx : InRange x) :
    get64 (ofInt x) = if 0 ≤ x ∧ x < 2 ^ 64 then some (BitVec.ofInt 64 x) else none := by
  obtain ⟨h1, h2⟩ := hx
  have hhi : BitVec.ofInt 64 (x / 2 ^ 64) = 0 ↔ 0 ≤ x ∧ x < 2 ^ 64 := by
    rw [← BitVec.toInt_inj, toInt_ofInt_64 (by omega) (by omega)]
    simp
    omega
  unfold get64 ofInt
  simp only [hhi]

end Int128

/-! ## Address arithmetic -/

/-- The operations on 128-bit addresses and sizes. -/
class AddressArith (α : Type) where
  ofInt128 : Int128 → α
  make64 : Hwaddr → α
  get64 : α → Option Hwaddr
  add : α → α → α
  sub : α → α → α
  ge : α → α → Bool
  eq : α → α → Bool

instance : AddressArith Int128 where
  ofInt128 := id
  make64 := Int128.make64
  get64 := Int128.get64
  add := Int128.add
  sub := Int128.sub
  ge := Int128.ge
  eq a b := a.lo == b.lo && a.hi == b.hi

instance : AddressArith ℤ where
  ofInt128 := Int128.toInt
  make64 a := a.toNat
  get64 a := if 0 ≤ a ∧ a < 2 ^ 64 then some (BitVec.ofInt 64 a) else none
  add := (· + ·)
  sub := (· - ·)
  ge a b := decide (b ≤ a)
  eq a b := decide (a = b)

namespace AddressArith

variable {α : Type} [AddressArith α]

def zero : α := make64 0

def two64 : α := ofInt128 Int128.two64

def lt (a b : α) : Bool := !ge a b

def le (a b : α) : Bool := ge b a

def nz (a : α) : Bool := !eq a zero

def min (a b : α) : α := if le a b then a else b

def max (a b : α) : α := if ge a b then a else b

/-! ### Over the integers -/

variable (a b : ℤ)

@[simp] theorem int_add : add a b = a + b := rfl

@[simp] theorem int_sub : sub a b = a - b := rfl

@[simp] theorem int_make64 (a : Hwaddr) : (make64 a : ℤ) = a.toNat := rfl

@[simp] theorem int_ofInt128 (a : Int128) : (ofInt128 a : ℤ) = a.toInt := rfl

@[simp] theorem int_zero : (zero : ℤ) = 0 := rfl

@[simp] theorem int_two64 : (two64 : ℤ) = 2 ^ 64 := by decide

@[simp] theorem int_ge : ge a b = decide (b ≤ a) := rfl

@[simp] theorem int_le : le a b = decide (a ≤ b) := rfl

@[simp] theorem int_lt : lt a b = decide (a < b) := by
  rw [lt, int_ge, ← decide_not]
  exact decide_eq_decide.2 not_le

@[simp] theorem int_eq : eq a b = decide (a = b) := rfl

@[simp] theorem int_nz (a : ℤ) : nz a = decide (a ≠ 0) := by
  simp [nz]

@[simp] theorem int_min : min a b = Min.min a b := by
  simp [min, Int.min_def]

@[simp] theorem int_max : max a b = Max.max a b := by
  rcases le_total b a with h | h
  · simp [max, h]
  · rcases h.lt_or_eq with h' | rfl
    · simp [max, h'.le, not_le.2 h']
    · simp [max]

end AddressArith

end QemuArm
