import Mathlib

/-!
# Masks of the high bits

`prefixMask w k` is the word of `w` bits in which exactly the bits from `k` on are set. Two words
agree under it when they lie in the same aligned block of `2 ^ k` (`and_prefixMask_eq_iff`).
Shifting it widens the blocks (`prefixMask_shiftLeft_one`), and the intersection of two of these
masks is the one with the wider blocks (`prefixMask_and`).
-/

variable {w : ℕ}

def prefixMask (w k : ℕ) : BitVec w := BitVec.allOnes w <<< k

@[simp] theorem getLsbD_prefixMask (k i : ℕ) :
    (prefixMask w k).getLsbD i = (decide (i < w) && decide (k ≤ i)) := by
  rw [prefixMask, BitVec.getLsbD_shiftLeft, BitVec.getLsbD_allOnes]
  by_cases hk : k ≤ i
  · by_cases hi : i < w
    · simp [hi, hk, show i - k < w by omega]
    · simp [hi]
  · simp [hk, show i < k by omega]

@[simp] theorem getElem_prefixMask {k i : ℕ} (hi : i < w) :
    (prefixMask w k)[i] = decide (k ≤ i) := by
  rw [← BitVec.getLsbD_eq_getElem, getLsbD_prefixMask, decide_eq_true hi, Bool.true_and]

theorem prefixMask_shiftLeft_one (k : ℕ) : prefixMask w k <<< 1 = prefixMask w (k + 1) := by
  rw [prefixMask, prefixMask, BitVec.shiftLeft_add]

theorem prefixMask_and (k l : ℕ) : prefixMask w k &&& prefixMask w l = prefixMask w (max k l) := by
  refine BitVec.eq_of_getLsbD_eq fun i hi => ?_
  simp [hi]

theorem not_twoPow_sub_one {k : ℕ} (hk : k < w) :
    ~~~(BitVec.twoPow w k - 1#w) = prefixMask w k := by
  refine BitVec.eq_of_getLsbD_eq fun i hi => ?_
  have hpos : 0 < 2 ^ k := Nat.two_pow_pos k
  have hpow : 2 ^ k < 2 ^ w := Nat.pow_lt_pow_right (by omega) hk
  have hsub : (BitVec.twoPow w k - 1#w).toNat = 2 ^ k - 1 := by
    have hone : (1#w).toNat = 1 := BitVec.toNat_ofNat 1 w ▸ Nat.mod_eq_of_lt (by omega)
    have htwo : (BitVec.twoPow w k).toNat = 2 ^ k := by
      rw [BitVec.toNat_twoPow, Nat.mod_eq_of_lt hpow]
    rw [BitVec.toNat_sub_of_le (by rw [BitVec.le_def, hone, htwo]; exact Nat.one_le_two_pow), hone,
      htwo]
  rw [getLsbD_prefixMask, BitVec.getLsbD_not, ← BitVec.testBit_toNat, hsub]
  by_cases hik : i < k
  · simp [hi, hik]
  · simp [hi, hik, not_lt.1 hik]

/-- Agreement under the mask is membership in the same aligned block. -/
theorem and_prefixMask_eq_iff {k : ℕ} {x y : BitVec w} :
    x &&& prefixMask w k = y &&& prefixMask w k ↔ x.toNat / 2 ^ k = y.toNat / 2 ^ k := by
  have hdiv : ∀ z : BitVec w, z.toNat / 2 ^ k = (z >>> k).toNat := fun z => by
    rw [BitVec.toNat_ushiftRight, Nat.shiftRight_eq_div_pow]
  rw [hdiv, hdiv, BitVec.toNat_inj]
  constructor
  · intro h
    refine BitVec.eq_of_getLsbD_eq fun i _ => ?_
    have hi := congrArg (fun z => z.getLsbD (k + i)) h
    by_cases hw : k + i < w
    · simpa [hw] using hi
    · simp [BitVec.getLsbD_of_ge _ _ (not_lt.1 hw)]
  · intro h
    refine BitVec.eq_of_getLsbD_eq fun i _ => ?_
    by_cases hk : k ≤ i
    · have hi := congrArg (fun z => z.getLsbD (i - k)) h
      simp only [BitVec.getLsbD_ushiftRight, Nat.add_sub_cancel' hk] at hi
      simp [hi]
    · simp [hk]

theorem and_prefixMask_mono {k l : ℕ} {x y : BitVec w}
    (h : x &&& prefixMask w k = y &&& prefixMask w k) (hkl : k ≤ l) :
    x &&& prefixMask w l = y &&& prefixMask w l := by
  have hmask : prefixMask w l = prefixMask w k &&& prefixMask w l := by
    rw [prefixMask_and, max_eq_right hkl]
  rw [hmask, ← BitVec.and_assoc, h, BitVec.and_assoc]

theorem xor_and_eq_zero_iff {x y m : BitVec w} : (x ^^^ y) &&& m = 0#w ↔ x &&& m = y &&& m := by
  have hdistrib : (x ^^^ y) &&& m = (x &&& m) ^^^ (y &&& m) := by
    refine BitVec.eq_of_getLsbD_eq fun i hi => ?_
    simp only [BitVec.getLsbD_and, BitVec.getLsbD_xor]
    cases m.getLsbD i <;> simp
  rw [hdistrib, BitVec.xor_eq_zero_iff]
