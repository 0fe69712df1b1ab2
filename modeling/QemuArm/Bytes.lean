import Mathlib

/-!
# Byte buffers

A buffer is a function from offsets to bytes. `memcpy` and `Bytes.drop` are the copies and the
pointer arithmetic of C on it, `getLe` and `leBytes` the unsigned little-endian fields, and
`pack` a packed record of such fields. `getLe_drop_pack` reads a field back.
-/

namespace QemuArm

abbrev Bytes := ℕ → BitVec 8

/-- The buffer from offset `k` on. -/
def Bytes.drop (b : Bytes) (k : ℕ) : Bytes := fun i => b (k + i)

@[simp] theorem Bytes.drop_apply (b : Bytes) (k i : ℕ) : b.drop k i = b (k + i) := rfl

theorem Bytes.drop_drop (b : Bytes) (k l : ℕ) : (b.drop k).drop l = b.drop (k + l) := by
  funext i
  simp [add_assoc]

/-- The first `n` bytes of `src` at offset `off`. -/
def memcpy (dst : Bytes) (off : ℕ) (src : Bytes) (n : ℕ) : Bytes := fun i =>
  if off ≤ i ∧ i < off + n then src (i - off) else dst i

section Memcpy

variable {dst src : Bytes} {off n i : ℕ}

theorem memcpy_of_lt (h : i < off) : memcpy dst off src n i = dst i :=
  if_neg fun hi => by omega

theorem memcpy_of_ge (h : off + n ≤ i) : memcpy dst off src n i = dst i :=
  if_neg fun hi => by omega

@[simp] theorem memcpy_add (h : i < n) : memcpy dst off src n (off + i) = src i := by
  rw [memcpy, if_pos (by omega), Nat.add_sub_cancel_left]

theorem memcpy_zero_of_lt (h : i < n) : memcpy dst 0 src n i = src i := by
  rw [memcpy, if_pos (by omega), Nat.sub_zero]

end Memcpy

/-! ## Little-endian fields -/

/-- The bytes of `x`, the lowest first. -/
def leBytes (x : ℕ) : Bytes := fun i => BitVec.ofNat 8 (x / 256 ^ i)

/-- The unsigned value of the first `n` bytes. -/
def getLe (b : Bytes) : ℕ → ℕ
  | 0 => 0
  | n + 1 => (b 0).toNat + 256 * getLe (b.drop 1) n

theorem getLe_congr {n : ℕ} : ∀ {b c : Bytes}, (∀ i < n, b i = c i) → getLe b n = getLe c n := by
  induction n with
  | zero => exact fun _ => rfl
  | succ n ih =>
    intro b c h
    have htail : getLe (b.drop 1) n = getLe (c.drop 1) n := ih fun i hi => h (1 + i) (by omega)
    rw [getLe, getLe, h 0 (Nat.succ_pos n), htail]

theorem leBytes_drop_one (x : ℕ) : (leBytes x).drop 1 = leBytes (x / 256) := by
  funext i
  simp only [Bytes.drop_apply, leBytes, Nat.div_div_eq_div_mul, pow_add, pow_one]

theorem getLe_leBytes (n : ℕ) : ∀ x : ℕ, getLe (leBytes x) n = x % 256 ^ n := by
  induction n with
  | zero => intro x; simp [getLe, Nat.mod_one]
  | succ n ih =>
    intro x
    rw [getLe, leBytes_drop_one, ih, pow_succ', Nat.mod_mul]
    simp [leBytes]

theorem getLe_eq_of_leBytes {b : Bytes} {n x : ℕ} (h : ∀ i < n, b i = leBytes x i) :
    getLe b n = x % 256 ^ n :=
  (getLe_congr h).trans (getLe_leBytes n x)

theorem getLe_lt (n : ℕ) : ∀ b : Bytes, getLe b n < 256 ^ n := by
  induction n with
  | zero => intro b; simp [getLe]
  | succ n ih =>
    intro b
    have hn := ih (b.drop 1)
    rw [getLe]
    omega

theorem leBytes_getLe {n : ℕ} : ∀ {b : Bytes} {i : ℕ}, i < n → leBytes (getLe b n) i = b i := by
  induction n with
  | zero => exact fun h => absurd h (Nat.not_lt_zero _)
  | succ n ih =>
    intro b i hi
    cases i with
    | zero =>
      apply BitVec.eq_of_toNat_eq
      simp only [leBytes, getLe, pow_zero, Nat.div_one, BitVec.toNat_ofNat]
      omega
    | succ i =>
      have hdrop := congrFun (leBytes_drop_one (getLe b (n + 1))) i
      have hdiv : getLe b (n + 1) / 256 = getLe (b.drop 1) n := by
        rw [getLe]
        omega
      rw [hdiv, ih (by omega), Bytes.drop_apply, Bytes.drop_apply, add_comm 1 i] at hdrop
      exact hdrop

/-! ## Packed records -/

/-- Fields of the given widths and values, one after the other. -/
def pack : List (ℕ × ℕ) → Bytes
  | [], _ => 0
  | (n, x) :: fs, i => if i < n then leBytes x i else pack fs (i - n)

/-- The record has the value `x` as a field of width `n` at offset `off`. -/
def FieldAt : List (ℕ × ℕ) → ℕ → ℕ → ℕ → Prop
  | [], _, _, _ => False
  | (m, y) :: fs, off, n, x => off = 0 ∧ m = n ∧ y = x ∨ m ≤ off ∧ FieldAt fs (off - m) n x

theorem pack_add {n x : ℕ} {fs : List (ℕ × ℕ)} (i : ℕ) :
    pack ((n, x) :: fs) (n + i) = pack fs i := by
  rw [pack, if_neg (by omega), Nat.add_sub_cancel_left]

theorem getLe_drop_pack : ∀ {fs : List (ℕ × ℕ)} {off n x : ℕ}, FieldAt fs off n x →
    getLe ((pack fs).drop off) n = x % 256 ^ n
  | (m, y) :: fs, off, n, x, h => by
    rcases h with ⟨rfl, rfl, rfl⟩ | ⟨hle, h⟩
    · refine getLe_eq_of_leBytes fun i hi => ?_
      rw [Bytes.drop_apply, zero_add, pack, if_pos hi]
    · rw [← getLe_drop_pack h]
      refine getLe_congr fun i _ => ?_
      obtain ⟨d, rfl⟩ := Nat.exists_eq_add_of_le hle
      rw [Bytes.drop_apply, Bytes.drop_apply, Nat.add_assoc, pack_add, Nat.add_sub_cancel_left]

end QemuArm
