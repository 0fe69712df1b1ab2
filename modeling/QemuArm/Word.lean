import Mathlib

/-!
# Words as sets of bit positions

A machine word is read as the set of the positions of its set bits, and a list of
words as the set of the positions of all their bits, word after word. The lowest set
bit is `ctzl`, `w &&& (w - 1#64)` removes it (`getLsbD_and_sub_one`), and `rangeMask`
is the word with the bits of one interval. `popcountl` counts the positions.
-/

/-- A 64-bit machine word. -/
abbrev Word := BitVec 64

namespace Word

/-! ## The lowest set bit -/

/-- Position of the lowest set bit. -/
def ctzl (w : Word) : ℕ := w.ctz.toNat

variable {w : Word}

theorem ne_zero_iff : w ≠ 0#64 ↔ ∃ b, b < 64 ∧ w.getLsbD b = true := by
  constructor
  · intro h
    by_contra hn
    push Not at hn
    refine h (BitVec.eq_of_getLsbD_eq fun i hi => ?_)
    simpa using hn i hi
  · rintro ⟨b, -, hb⟩ rfl
    simp at hb

theorem eq_zero_iff : w = 0#64 ↔ ∀ b, w.getLsbD b = false := by
  constructor
  · rintro rfl b
    simp
  · intro h
    exact BitVec.eq_of_getLsbD_eq fun i _ => by simpa using h i

theorem getLsbD_ctzl (h : w ≠ 0#64) : w.getLsbD (ctzl w) = true :=
  BitVec.getLsbD_true_ctz_of_ne_zero h

theorem ctzl_lt (h : w ≠ 0#64) : ctzl w < 64 :=
  BitVec.lt_of_getLsbD (getLsbD_ctzl h)

theorem getLsbD_of_lt_ctzl {b : ℕ} (h : b < ctzl w) : w.getLsbD b = false :=
  BitVec.getLsbD_false_of_lt_ctz h

theorem ctzl_le {b : ℕ} (h : w.getLsbD b = true) : ctzl w ≤ b := by
  by_contra hlt
  rw [getLsbD_of_lt_ctzl (by omega)] at h
  exact Bool.false_ne_true h

/-- A word with its lowest set bit at `b` is that bit above a multiple of `2 ^ (b + 1)`. -/
theorem exists_toNat_eq (h : w ≠ 0#64) : ∃ q, w.toNat = 2 ^ (ctzl w + 1) * q + 2 ^ ctzl w := by
  refine ⟨w.toNat / 2 ^ (ctzl w + 1), ?_⟩
  conv_lhs => rw [← Nat.div_add_mod w.toNat (2 ^ (ctzl w + 1))]
  congr 1
  refine Nat.eq_of_testBit_eq fun i => ?_
  rcases lt_trichotomy i (ctzl w) with hi | rfl | hi
  · have : w.toNat.testBit i = false := getLsbD_of_lt_ctzl hi
    simp [this, hi.ne']
  · have : w.toNat.testBit (ctzl w) = true := getLsbD_ctzl h
    simp [this]
  · simp [show ¬i < ctzl w + 1 by omega, hi.ne]

/-- Clearing the lowest set bit removes that bit and no other. -/
theorem getLsbD_and_sub_one (h : w ≠ 0#64) (b : ℕ) :
    (w &&& (w - 1#64)).getLsbD b = (w.getLsbD b && decide (b ≠ ctzl w)) := by
  obtain ⟨q, hq⟩ := exists_toNat_eq h
  have hlt : 2 ^ ctzl w < 2 ^ (ctzl w + 1) := Nat.pow_lt_pow_right (by decide) (by omega)
  have hsub : (w - 1#64).toNat = 2 ^ (ctzl w + 1) * q + (2 ^ ctzl w - 1) := by
    rw [BitVec.toNat_sub, show (1#64).toNat = 1 from rfl]
    omega
  have hw : w.getLsbD b = (2 ^ (ctzl w + 1) * q + 2 ^ ctzl w).testBit b := by
    rw [← hq]
    rfl
  have hw1 : (w - 1#64).getLsbD b = (2 ^ (ctzl w + 1) * q + (2 ^ ctzl w - 1)).testBit b := by
    rw [← hsub]
    rfl
  rw [BitVec.getLsbD_and, hw, hw1, Nat.testBit_two_pow_mul_add _ hlt,
    Nat.testBit_two_pow_mul_add _ (by omega), Nat.testBit_two_pow]
  rcases lt_trichotomy b (ctzl w) with hb | rfl | hb
  · simp [show b < ctzl w + 1 by omega, hb.ne, hb.ne']
  · simp
  · simp [show ¬b < ctzl w + 1 by omega, hb.ne']

/-! ## Masks -/

variable {n : ℕ}

theorem getLsbD_one_shiftLeft (hn : n < 64) (b : ℕ) : (1#64 <<< n).getLsbD b = decide (b = n) := by
  rcases lt_trichotomy b n with h | rfl | h
  · simp [h, h.ne]
  · simp [hn]
  · simp [h.ne', show b - n ≠ 0 by omega]

theorem getLsbD_one_shiftLeft_sub_one (hn : n < 64) (b : ℕ) :
    ((1#64 <<< n) - 1#64).getLsbD b = decide (b < n) := by
  have hlt : (2 : ℕ) ^ n < 2 ^ 64 := Nat.pow_lt_pow_right (by decide) hn
  have hpos : 1 ≤ 2 ^ n := Nat.one_le_two_pow
  have h : ((1#64 <<< n) - 1#64).toNat = 2 ^ n - 1 := by
    have h1 : (1#64 <<< n).toNat = 2 ^ n := by
      rw [BitVec.toNat_shiftLeft, BitVec.toNat_ofNat, Nat.one_shiftLeft, Nat.mod_eq_of_lt hlt]
    rw [BitVec.toNat_sub, show (1#64).toNat = 1 from rfl]
    omega
  show ((1#64 <<< n) - 1#64).toNat.testBit b = _
  rw [h, Nat.testBit_two_pow_sub_one]

/-- The word with the bits from `first` to `last`, built by one subtraction. -/
def rangeMask (first last : ℕ) : Word := (2#64 <<< last) - (1#64 <<< first)

theorem getLsbD_rangeMask {first last : ℕ} (h : first ≤ last) (hl : last < 64) (b : ℕ) :
    (rangeMask first last).getLsbD b = decide (first ≤ b ∧ b ≤ last) := by
  have hf : (2 : ℕ) ^ first < 2 ^ 64 := Nat.pow_lt_pow_right (by decide) (by omega)
  have hle : (2 : ℕ) ^ first ≤ 2 ^ last := Nat.pow_le_pow_right (by decide) h
  have hl1 : (2 : ℕ) ^ (last + 1) ≤ 2 ^ 64 := Nat.pow_le_pow_right (by decide) (by omega)
  have hsucc : (2 : ℕ) ^ (last + 1) = 2 * 2 ^ last := by rw [pow_succ, mul_comm]
  -- for `last = 63` the shifted `2` is gone and the subtraction wraps to the same mask
  have hnat : (rangeMask first last).toNat = 2 ^ (last + 1) - 2 ^ first := by
    have h1 : (1#64 <<< first).toNat = 2 ^ first := by
      rw [BitVec.toNat_shiftLeft, BitVec.toNat_ofNat, Nat.one_shiftLeft, Nat.mod_eq_of_lt hf]
    have h2 : (2#64 <<< last).toNat = 2 ^ (last + 1) % 2 ^ 64 := by
      rw [BitVec.toNat_shiftLeft, BitVec.toNat_ofNat, Nat.shiftLeft_eq, hsucc]
    rw [rangeMask, BitVec.toNat_sub, h1, h2]
    rcases lt_or_ge (2 ^ (last + 1)) (2 ^ 64) with hlt | hge
    · omega
    · rw [le_antisymm hl1 hge, Nat.mod_self, add_zero, Nat.mod_eq_of_lt]
      exact Nat.sub_lt (by decide) (by positivity)
  have hmul : (2 : ℕ) ^ (last + 1) - 2 ^ first = 2 ^ first * (2 ^ (last + 1 - first) - 1) := by
    rw [Nat.mul_sub, mul_one, ← pow_add]
    congr 2
    omega
  show (rangeMask first last).toNat.testBit b = _
  rw [hnat, hmul, Nat.testBit_two_pow_mul]
  by_cases hb : first ≤ b <;> simp [hb]
  omega

/-! ## Counting bits -/

/-- Number of set bits. -/
def popcountl (w : Word) : ℕ := (List.range 64).countP w.getLsbD

/-! ## Lists of words -/

/-- Bit `j` of a list of words; positions past the end read as clear. -/
def bitAt (ws : List Word) (j : ℕ) : Bool := (ws.getD (j / 64) 0#64).getLsbD (j % 64)

variable {ws : List Word}

theorem bitAt_lt {j : ℕ} (h : bitAt ws j = true) : j / 64 < ws.length := by
  by_contra hge
  rw [bitAt, List.getD_eq_default _ _ (not_lt.1 hge)] at h
  simp at h

theorem bitAt_of_getElem? (h : ws[n]? = some w) {b : ℕ} (hb : b < 64) :
    bitAt ws (n * 64 + b) = w.getLsbD b := by
  have h1 : (n * 64 + b) / 64 = n := by omega
  have h2 : (n * 64 + b) % 64 = b := by omega
  rw [bitAt, h1, h2, List.getD_eq_getElem?_getD, h, Option.getD_some]

/-- Word `n` of the list is zero exactly when all its bits are clear. -/
theorem getD_eq_zero_iff : ws.getD n 0#64 = 0#64 ↔ ∀ j, j / 64 = n → bitAt ws j = false := by
  rw [eq_zero_iff]
  constructor
  · rintro h j rfl
    exact h (j % 64)
  · intro h b
    rcases lt_or_ge b 64 with hb | hb
    · have := h (n * 64 + b) (by omega)
      rwa [bitAt, show (n * 64 + b) / 64 = n by omega, show (n * 64 + b) % 64 = b by omega] at this
    · exact BitVec.getLsbD_of_ge _ _ hb

theorem getD_set_ne {m : ℕ} (h : m ≠ n) : (ws.set n w).getD m 0#64 = ws.getD m 0#64 := by
  rw [List.getD_eq_getElem?_getD, List.getElem?_set_ne h.symm, List.getD_eq_getElem?_getD]

/-- Word `n` is determined by its bits. -/
theorem getD_ext {ws' : List Word} (h : ∀ j, j / 64 = n → bitAt ws j = bitAt ws' j) :
    ws.getD n 0#64 = ws'.getD n 0#64 := by
  refine BitVec.eq_of_getLsbD_eq fun b hb => ?_
  have := h (n * 64 + b) (by omega)
  rwa [bitAt, bitAt, show (n * 64 + b) / 64 = n by omega, show (n * 64 + b) % 64 = b by omega]
    at this

theorem bitAt_set (hn : n < ws.length) (w : Word) (j : ℕ) :
    bitAt (ws.set n w) j = if j / 64 = n then w.getLsbD (j % 64) else bitAt ws j := by
  unfold bitAt
  rw [List.getD_eq_getElem?_getD, List.getElem?_set]
  by_cases h : n = j / 64
  · subst h
    simp [hn]
  · rw [if_neg h, if_neg (Ne.symm h), List.getD_eq_getElem?_getD]

end Word
