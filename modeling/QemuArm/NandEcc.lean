import Mathlib

/-!
# Error correcting codes of NAND flash

`hw/block/ecc.c` digests a page byte by byte : the column parity `cp` from a table, and for a
byte of odd parity its number and the complement of it into the line parities `lp`.

`eccDigest_flip` : one wrong bit shows its byte in the difference of the line parities and its
place in the byte in that of the column parities.
-/

namespace QemuArm

/-- `nand_ecc_precalc_table` -/
def nandEccPrecalcTable : List (BitVec 8) :=
  [0x00, 0x55, 0x56, 0x03, 0x59, 0x0c, 0x0f, 0x5a, 0x5a, 0x0f, 0x0c, 0x59, 0x03, 0x56, 0x55, 0x00,
   0x65, 0x30, 0x33, 0x66, 0x3c, 0x69, 0x6a, 0x3f, 0x3f, 0x6a, 0x69, 0x3c, 0x66, 0x33, 0x30, 0x65,
   0x66, 0x33, 0x30, 0x65, 0x3f, 0x6a, 0x69, 0x3c, 0x3c, 0x69, 0x6a, 0x3f, 0x65, 0x30, 0x33, 0x66,
   0x03, 0x56, 0x55, 0x00, 0x5a, 0x0f, 0x0c, 0x59, 0x59, 0x0c, 0x0f, 0x5a, 0x00, 0x55, 0x56, 0x03,
   0x69, 0x3c, 0x3f, 0x6a, 0x30, 0x65, 0x66, 0x33, 0x33, 0x66, 0x65, 0x30, 0x6a, 0x3f, 0x3c, 0x69,
   0x0c, 0x59, 0x5a, 0x0f, 0x55, 0x00, 0x03, 0x56, 0x56, 0x03, 0x00, 0x55, 0x0f, 0x5a, 0x59, 0x0c,
   0x0f, 0x5a, 0x59, 0x0c, 0x56, 0x03, 0x00, 0x55, 0x55, 0x00, 0x03, 0x56, 0x0c, 0x59, 0x5a, 0x0f,
   0x6a, 0x3f, 0x3c, 0x69, 0x33, 0x66, 0x65, 0x30, 0x30, 0x65, 0x66, 0x33, 0x69, 0x3c, 0x3f, 0x6a,
   0x6a, 0x3f, 0x3c, 0x69, 0x33, 0x66, 0x65, 0x30, 0x30, 0x65, 0x66, 0x33, 0x69, 0x3c, 0x3f, 0x6a,
   0x0f, 0x5a, 0x59, 0x0c, 0x56, 0x03, 0x00, 0x55, 0x55, 0x00, 0x03, 0x56, 0x0c, 0x59, 0x5a, 0x0f,
   0x0c, 0x59, 0x5a, 0x0f, 0x55, 0x00, 0x03, 0x56, 0x56, 0x03, 0x00, 0x55, 0x0f, 0x5a, 0x59, 0x0c,
   0x69, 0x3c, 0x3f, 0x6a, 0x30, 0x65, 0x66, 0x33, 0x33, 0x66, 0x65, 0x30, 0x6a, 0x3f, 0x3c, 0x69,
   0x03, 0x56, 0x55, 0x00, 0x5a, 0x0f, 0x0c, 0x59, 0x59, 0x0c, 0x0f, 0x5a, 0x00, 0x55, 0x56, 0x03,
   0x66, 0x33, 0x30, 0x65, 0x3f, 0x6a, 0x69, 0x3c, 0x3c, 0x69, 0x6a, 0x3f, 0x65, 0x30, 0x33, 0x66,
   0x65, 0x30, 0x33, 0x66, 0x3c, 0x69, 0x6a, 0x3f, 0x3f, 0x6a, 0x69, 0x3c, 0x66, 0x33, 0x30, 0x65,
   0x00, 0x55, 0x56, 0x03, 0x59, 0x0c, 0x0f, 0x5a, 0x5a, 0x0f, 0x0c, 0x59, 0x03, 0x56, 0x55, 0x00]

structure ECCState where
  cp : BitVec 8
  lp0 : BitVec 16
  lp1 : BitVec 16
  count : BitVec 16

def eccReset : ECCState := ⟨0, 0, 0, 0⟩

def eccDigest (s : ECCState) (sample : BitVec 8) : ECCState :=
  let idx := nandEccPrecalcTable.getD sample.toNat 0
  { cp := s.cp ^^^ (idx &&& 0x3f)
    lp0 := if idx &&& 0x40 ≠ 0 then s.lp0 ^^^ ~~~s.count else s.lp0
    lp1 := if idx &&& 0x40 ≠ 0 then s.lp1 ^^^ s.count else s.lp1
    count := s.count + 1 }

/-- By how much a wrong bit changes the column parity. -/
def columnParity (j : Fin 8) : BitVec 8 :=
  nandEccPrecalcTable.getD (2 ^ j.val) 0 &&& 0x3f

def flipBit (j : Fin 8) (b : BitVec 8) : BitVec 8 := b ^^^ BitVec.twoPow 8 j

/-- How the states differ after bit `j` of the byte with number `i` was wrong. -/
structure ECCState.Differ (s s' : ECCState) (i : BitVec 16) (j : Fin 8) : Prop where
  count : s'.count = s.count
  lp1 : s'.lp1 ^^^ s.lp1 = i
  lp0 : s'.lp0 ^^^ s.lp0 = ~~~i
  cp : s'.cp ^^^ s.cp = columnParity j

open ECCState

theorem columnParity_injective : Function.Injective columnParity := by decide +kernel

theorem nandEccPrecalcTable_flip : ∀ (b : BitVec 8) (j : Fin 8),
    (nandEccPrecalcTable.getD (flipBit j b).toNat 0 &&& 0x40 ≠ 0 ↔
      ¬nandEccPrecalcTable.getD b.toNat 0 &&& 0x40 ≠ 0) ∧
    nandEccPrecalcTable.getD (flipBit j b).toNat 0 &&& 0x3f =
      (nandEccPrecalcTable.getD b.toNat 0 &&& 0x3f) ^^^ columnParity j := by
  decide +kernel

section Xor

variable {w : ℕ} (x y n : BitVec w)

theorem xor_xor_self : (x ^^^ n) ^^^ x = n := by
  rw [BitVec.xor_comm x, BitVec.xor_assoc, BitVec.xor_self, BitVec.xor_zero]

theorem xor_xor_xor : (x ^^^ n) ^^^ (y ^^^ n) = x ^^^ y := by
  rw [BitVec.xor_comm y, BitVec.xor_assoc, ← BitVec.xor_assoc n, BitVec.xor_self, BitVec.zero_xor]

theorem xor_ite {p q : Prop} [Decidable p] [Decidable q] (h : q ↔ ¬p) :
    (if q then x ^^^ n else x) ^^^ (if p then x ^^^ n else x) = n := by
  by_cases hp : p
  · rw [if_neg (by simp [h, hp]), if_pos hp, BitVec.xor_comm, xor_xor_self]
  · rw [if_pos (h.2 hp), if_neg hp, xor_xor_self]

end Xor

theorem differ_flip (s : ECCState) (b : BitVec 8) (j : Fin 8) :
    Differ (eccDigest s b) (eccDigest s (flipBit j b)) s.count j := by
  obtain ⟨hodd, hcol⟩ := nandEccPrecalcTable_flip b j
  refine ⟨rfl, xor_ite _ _ hodd, xor_ite _ _ hodd, ?_⟩
  dsimp only [eccDigest]
  rw [BitVec.xor_comm s.cp, BitVec.xor_comm s.cp, xor_xor_xor, hcol, xor_xor_self]

theorem ECCState.Differ.digest {s s' : ECCState} {i : BitVec 16} {j : Fin 8} (h : Differ s s' i j)
    (b : BitVec 8) : Differ (eccDigest s b) (eccDigest s' b) i j := by
  refine ⟨by rw [eccDigest, eccDigest, h.count], ?_, ?_, (xor_xor_xor _ _ _).trans h.cp⟩
  · dsimp only [eccDigest]
    rw [h.count]
    split
    · exact (xor_xor_xor _ _ _).trans h.lp1
    · exact h.lp1
  · dsimp only [eccDigest]
    rw [h.count]
    split
    · exact (xor_xor_xor _ _ _).trans h.lp0
    · exact h.lp0

theorem differ_modify (j : Fin 8) : ∀ (l : List (BitVec 8)) (i : ℕ) (s : ECCState), i < l.length →
    Differ (l.foldl eccDigest s) ((l.modify i (flipBit j)).foldl eccDigest s)
      (s.count + BitVec.ofNat 16 i) j
  | b :: l, 0, s, _ => by
    have hl : ∀ (l : List (BitVec 8)) {s s' : ECCState} {i : BitVec 16}, Differ s s' i j →
        Differ (l.foldl eccDigest s) (l.foldl eccDigest s') i j := by
      intro l
      induction l with
      | nil => exact id
      | cons b l ih => exact fun h => ih (h.digest b)
    simpa using hl l (differ_flip s b j)
  | b :: l, i + 1, s, hi => by
    have ih := differ_modify j l i (eccDigest s b) (by simpa using hi)
    have hi : (eccDigest s b).count + BitVec.ofNat 16 i = s.count + BitVec.ofNat 16 (i + 1) := by
      dsimp only [eccDigest]
      rw [BitVec.add_assoc, BitVec.add_comm 1, BitVec.ofNat_add]
      rfl
    rw [← hi]
    exact ih

/-- A wrong bit is located, in a page of up to 65536 bytes : the line parities give its byte, and
the column parity, which is another one for every place in a byte, its place. -/
theorem eccDigest_flip (l : List (BitVec 8)) (i : ℕ) (j : Fin 8) (s s' : ECCState)
    (hn : l.length ≤ 65536) (hi : i < l.length) (hs : s = l.foldl eccDigest eccReset)
    (hs' : s' = (l.modify i (flipBit j)).foldl eccDigest eccReset) :
    (s'.lp1 ^^^ s.lp1).toNat = i ∧ (s'.lp0 ^^^ s.lp0).toNat = 65535 - i ∧
      s'.cp ^^^ s.cp = columnParity j ∧ Function.Injective columnParity := by
  subst hs hs'
  obtain ⟨-, h1, h0, hcp⟩ := differ_modify j l i eccReset hi
  have h : (eccReset.count + BitVec.ofNat 16 i).toNat = i := by
    simpa [eccReset] using hi.trans_le hn
  rw [h1, h0, hcp, BitVec.toNat_not, h]
  exact ⟨rfl, rfl, rfl, columnParity_injective⟩

/-- Bit 3 of the second byte is wrong. -/
theorem eccDigest_flip_second :
    let s := [0x12#8, 0x34#8].foldl eccDigest eccReset
    let s' := [0x12#8, 0x3c#8].foldl eccDigest eccReset
    (s'.lp1 ^^^ s.lp1).toNat = 1 ∧ (s'.lp0 ^^^ s.lp0).toNat = 65534 ∧
      s'.cp ^^^ s.cp = columnParity 3 :=
  have h := eccDigest_flip [0x12#8, 0x34#8] 1 3 _ _ (by decide) (by decide) rfl rfl
  ⟨h.1, h.2.1, h.2.2.1⟩

end QemuArm
