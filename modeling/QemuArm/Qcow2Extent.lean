import Mathlib

/-!
# Extents of a qcow2 image

`qcow2_get_cluster_offset` of `qcow2-cluster.c` looks up a run of sectors at once. Each sector of
the run is found in the same way as when it is looked up alone (`getClusterOffset_extent`). A
version 2 image must not have the zero flag, and the lookup fails there
(`getClusterOffset_zero_v2`).

`file` is the image file in words of 64 bits, as `be64_to_cpu` gives them. Requests to it succeed.
-/

namespace QemuArm

open List BitVec

inductive ClusterType
  | unallocated
  | normal
  | compressed
  | zero
deriving DecidableEq

/-- `QCOW_OFLAG_COMPRESSED` -/
def oflagCompressed : BitVec 64 := twoPow 64 62

/-- `QCOW_OFLAG_ZERO` -/
def oflagZero : BitVec 64 := twoPow 64 0

/-- `L1E_OFFSET_MASK` and `L2E_OFFSET_MASK` -/
def offsetMask : BitVec 64 := 0x00fffffffffffe00#64

/-- `L2E_COMPRESSED_OFFSET_SIZE_MASK` -/
def compressedOffsetSizeMask : BitVec 64 := 0x3fffffffffffffff#64

/-- `qcow2_get_cluster_type`. -/
def getClusterType (l2Entry : BitVec 64) : ClusterType :=
  if l2Entry &&& oflagCompressed ≠ 0#64 then .compressed
  else if l2Entry &&& oflagZero ≠ 0#64 then .zero
  else if l2Entry &&& offsetMask = 0#64 then .unallocated
  else .normal

/-- `count_contiguous_clusters`, `none` when the assertion fails. -/
def countContiguousClusters (nbClusters clusterSize : ℕ) (l2Table : ℕ → BitVec 64)
    (stopFlags : BitVec 64) : Option ℕ :=
  let mask := stopFlags ||| offsetMask ||| oflagCompressed
  let offset := l2Table 0 &&& mask
  if offset = 0#64 then some 0
  else if getClusterType (l2Table 0) = .compressed then none
  else some ((List.range nbClusters).takeWhile fun i =>
    offset + BitVec.ofNat 64 (i * clusterSize) = l2Table i &&& mask).length

/-- `count_contiguous_free_clusters`. -/
def countContiguousFreeClusters (nbClusters : ℕ) (l2Table : ℕ → BitVec 64) : ℕ :=
  ((List.range nbClusters).takeWhile fun i => getClusterType (l2Table i) = .unallocated).length

structure Qcow2Map where
  clusterBits : ℕ
  qcowVersion : ℕ
  l1Table : List (BitVec 64)
  file : ℕ → BitVec 64
  bits_le : 9 ≤ clusterBits
  le_bits : clusterBits ≤ 21

/-- What a lookup returns: the type, the number of sectors and the offset in the file. -/
structure Extent where
  type : ClusterType
  num : ℤ
  clusterOffset : BitVec 64
  deriving DecidableEq

inductive LookupFault
  | eio
  | abort
  deriving DecidableEq

namespace Qcow2Map

variable (m : Qcow2Map)

def clusterSectors : ℕ := 2 ^ (m.clusterBits - 9)

def clusterSize : ℕ := 512 * m.clusterSectors

def l2Size : ℕ := 2 ^ (m.clusterBits - 3)

/-- The offset of the L2 table of an index of the L1 table, if there is one. -/
def l2Offset (l1Index : ℕ) : Option (BitVec 64) :=
  match m.l1Table[l1Index]? with
  | none => none
  | some e => if e &&& offsetMask = 0#64 then none else some (e &&& offsetMask)

def l2Load (offset : BitVec 64) (i : ℕ) : BitVec 64 := m.file (offset.toNat / 8 + i)

/-- `qcow2_get_cluster_offset`. -/
def getClusterOffset (offset num : ℕ) : Except LookupFault Extent :=
  let indexInCluster := offset / 512 % m.clusterSectors
  let l1Bytes := m.l2Size * m.clusterSize
  let nbAvailable := (l1Bytes - offset % l1Bytes) / 512 + indexInCluster
  let nbNeeded := min ((num + indexInCluster) % 2 ^ 32) nbAvailable
  let out (type : ClusterType) (nbAvailable : ℕ) (clusterOffset : BitVec 64) :=
    Except.ok ⟨type, (min nbAvailable nbNeeded : ℤ) - indexInCluster, clusterOffset⟩
  match m.l2Offset (offset / l1Bytes) with
  | none => out .unallocated nbAvailable 0
  | some l2Offset =>
    let l2Index := offset / m.clusterSize % m.l2Size
    let l2Table := fun i => m.l2Load l2Offset (l2Index + i)
    let entry := l2Table 0
    let nbClusters := (nbNeeded * 512 + (m.clusterSize - 1)) / m.clusterSize
    let contiguous := countContiguousClusters nbClusters m.clusterSize l2Table oflagZero
    match getClusterType entry with
    | .compressed => out .compressed (1 * m.clusterSectors) (entry &&& compressedOffsetSizeMask)
    | .zero =>
      if m.qcowVersion < 3 then .error .eio
      else match contiguous with
        | none => .error .abort
        | some c => out .zero (c * m.clusterSectors) 0
    | .unallocated =>
      out .unallocated (countContiguousFreeClusters nbClusters l2Table * m.clusterSectors) 0
    | .normal =>
      match contiguous with
      | none => .error .abort
      | some c => out .normal (c * m.clusterSectors) (entry &&& offsetMask)

end Qcow2Map

/-! ## Runs of entries -/

variable {n : ℕ}

theorem le_length_takeWhile_range {p i}
    (h : i < ((List.range n).takeWhile p).length) : i < n ∧ p i = true := by
  have hsub := takeWhile_sublist p (l := List.range n)
  have hlt : i < n := h.trans_le (hsub.length_le.trans_eq length_range)
  refine ⟨hlt, ?_⟩
  have hp := mem_takeWhile_imp (getElem_mem h)
  rwa [List.IsPrefix.getElem ( takeWhile_prefix p) h, getElem_range] at hp

theorem pos_length_takeWhile_range {p} (hn : 0 < n) (h : p 0 = true) :
    0 < ((List.range n).takeWhile p).length := by
  obtain ⟨n, rfl⟩ := Nat.exists_eq_add_of_lt hn
  rw [range_succ_eq_map, takeWhile_cons_of_pos h]
  exact Nat.succ_pos _

/-- A sum without the compressed flag, and with the zero flag of its first part. -/
theorem add_flags {x} (hx : x.toNat < 2 ^ 57) (hn : n < 2 ^ 57) (heven : n % 2 = 0) :
    (x + BitVec.ofNat 64 n).toNat = x.toNat + n ∧
      (x + BitVec.ofNat 64 n) &&& oflagCompressed = 0#64 ∧
      (x + BitVec.ofNat 64 n) &&& oflagZero = x &&& oflagZero := by
  have hsum : (x + BitVec.ofNat 64 n).toNat = x.toNat + n := by
    rw [toNat_add, toNat_ofNat]
    omega
  refine ⟨hsum, ?_, ?_⟩
  · have hbit : (x + BitVec.ofNat 64 n).getLsbD 62 = false := by
      exact Nat.testBit_lt_two_pow (by omega)
    rw [oflagCompressed, and_twoPow, hbit]
    rfl
  · have hbit : (x + BitVec.ofNat 64 n).getLsbD 0 = x.getLsbD 0 := by
      rw [getLsbD, getLsbD, Nat.testBit_zero, Nat.testBit_zero]
      congr 2
      omega
    rw [oflagZero, and_twoPow, and_twoPow, hbit]

/-- The entries of a contiguous run have the type of the first one. -/
theorem getClusterType_contiguous {e e'} (hn : n < 2 ^ 57) (heven : n % 2 = 0)
    (hc : e &&& oflagCompressed = 0#64)
    (h : (e &&& (oflagZero ||| offsetMask ||| oflagCompressed)) + BitVec.ofNat 64 n =
      e' &&& (oflagZero ||| offsetMask ||| oflagCompressed)) :
    e' &&& oflagCompressed = 0#64 ∧ e' &&& oflagZero = e &&& oflagZero ∧
      (e &&& oflagZero = 0#64 → (e' &&& offsetMask).toNat = (e &&& offsetMask).toNat + n) := by
  obtain ⟨x, hx⟩ := @exists_eq _ (e &&& (oflagZero ||| offsetMask))
  have hmask : ∀ y : BitVec 64, y &&& oflagCompressed = 0#64 →
      y &&& (oflagZero ||| offsetMask ||| oflagCompressed) = y &&& (oflagZero ||| offsetMask) := by
    intro y hy
    rw [and_or_distrib_left, hy, or_zero]
  have hoff : ∀ y : BitVec 64, y &&& oflagZero = 0#64 →
      y &&& (oflagZero ||| offsetMask) = y &&& offsetMask := by
    intro y hy
    rw [and_or_distrib_left, hy, zero_or]
  have hlt : x.toNat < 2 ^ 57 := by
    rw [hx]
    exact Nat.and_le_right.trans_lt (by decide)
  obtain ⟨hsum, hcomp, hzero⟩ := add_flags hlt hn heven
  rw [hmask e hc, ← hx] at h
  have hc' : e' &&& oflagCompressed = 0#64 := by
    rwa [h, BitVec.and_assoc] at hcomp
  rw [hmask e' hc'] at h
  have hz : e' &&& oflagZero = e &&& oflagZero := by
    rwa [h, hx, BitVec.and_assoc, BitVec.and_assoc] at hzero
  refine ⟨hc', hz, fun he => ?_⟩
  rw [← hoff e he, ← hoff e' (hz.trans he), ← h, hsum, hx]

/-- What the two loops count : entries of one type, and for normal clusters at offsets one after
the other. -/
structure Run (clusterSize : ℕ) (l2Table : ℕ → BitVec 64) (n c : ℕ) : Prop where
  pos : 0 < n → 0 < c
  type : ∀ i < c, getClusterType (l2Table i) = getClusterType (l2Table 0)
  offset : getClusterType (l2Table 0) = .normal → ∀ i < c,
    (l2Table i &&& offsetMask).toNat = (l2Table 0 &&& offsetMask).toNat + i * clusterSize

theorem run_countContiguousFreeClusters {clusterSize l2Table}
    (h : getClusterType (l2Table 0) = .unallocated) :
    Run clusterSize l2Table n (countContiguousFreeClusters n l2Table) where
  pos hn := pos_length_takeWhile_range hn (decide_eq_true h)
  type i hi := by
    rw [h]
    exact of_decide_eq_true (le_length_takeWhile_range hi).2
  offset hnormal := by
    rw [h] at hnormal
    cases hnormal

/-- The cases of `qcow2_get_cluster_type`. -/
theorem getClusterType_cases (e : BitVec 64) :
    (e &&& oflagCompressed ≠ 0#64 ∧ getClusterType e = .compressed) ∨
    (e &&& oflagCompressed = 0#64 ∧ ((e &&& oflagZero ≠ 0#64 ∧ getClusterType e = .zero) ∨
      (e &&& oflagZero = 0#64 ∧
        ((e &&& offsetMask = 0#64 ∧ getClusterType e = .unallocated) ∨
        (e &&& offsetMask ≠ 0#64 ∧ getClusterType e = .normal))))) := by
  rw [getClusterType]
  split_ifs with hc hz ho
  · exact .inl ⟨hc, rfl⟩
  · exact .inr ⟨not_not.1 hc, .inl ⟨hz, rfl⟩⟩
  · exact .inr ⟨not_not.1 hc, .inr ⟨not_not.1 hz, .inl ⟨ho, rfl⟩⟩⟩
  · exact .inr ⟨not_not.1 hc, .inr ⟨not_not.1 hz, .inr ⟨ho, rfl⟩⟩⟩

/-- The clusters that are counted form a run. -/
theorem run_countContiguousClusters {clusterSize l2Table}
    (hn : n * clusterSize < 2 ^ 57) (heven : clusterSize % 2 = 0)
    (h : getClusterType (l2Table 0) = .zero ∨ getClusterType (l2Table 0) = .normal) :
    ∃ c, countContiguousClusters n clusterSize l2Table oflagZero = some c ∧
      Run clusterSize l2Table n c := by
  obtain ⟨mask, hmask⟩ := @exists_eq _ (oflagZero ||| offsetMask ||| oflagCompressed)
  obtain ⟨hc, hflags⟩ : l2Table 0 &&& oflagCompressed = 0#64 ∧
      (l2Table 0 &&& oflagZero = 0#64 → l2Table 0 &&& offsetMask ≠ 0#64) := by
    have := getClusterType_cases (l2Table 0)
    grind
  have hne : l2Table 0 &&& mask ≠ 0#64 := by
    rw [hmask, and_or_distrib_left, and_or_distrib_left]
    intro hzero
    rw [or_eq_zero_iff, or_eq_zero_iff] at hzero
    exact hflags hzero.1.1 hzero.1.2
  have hcompressed : getClusterType (l2Table 0) ≠ .compressed := by
    rcases h with h | h <;> rw [h] <;> decide
  have hrun : ∀ i < ((List.range n).takeWhile fun i => decide
      ((l2Table 0 &&& mask) + BitVec.ofNat 64 (i * clusterSize) = l2Table i &&& mask)).length,
      l2Table i &&& oflagCompressed = 0#64 ∧ l2Table i &&& oflagZero = l2Table 0 &&& oflagZero ∧
      (l2Table 0 &&& oflagZero = 0#64 →
        (l2Table i &&& offsetMask).toNat = (l2Table 0 &&& offsetMask).toNat + i * clusterSize) := by
    intro i hi
    obtain ⟨hlt, heq⟩ := le_length_takeWhile_range hi
    have hle : i * clusterSize ≤ n * clusterSize := Nat.mul_le_mul_right _ hlt.le
    exact getClusterType_contiguous (by omega) (by rw [Nat.mul_mod, heven, Nat.mul_zero]) hc
      (hmask ▸ of_decide_eq_true heq)
  refine ⟨((List.range n).takeWhile fun i => decide
    ((l2Table 0 &&& mask) + BitVec.ofNat 64 (i * clusterSize) = l2Table i &&& mask)).length,
    ?_, fun hpos => ?_, fun i hi => ?_, fun hnormal i hi => ?_⟩
  · rw [countContiguousClusters, ← hmask, if_neg hne, if_neg hcompressed]
  · refine pos_length_takeWhile_range hpos (decide_eq_true ?_)
    rw [Nat.zero_mul]
    exact add_zero _
  · obtain ⟨hci, hzi, hoff⟩ := hrun i hi
    have hnonzero : l2Table 0 &&& oflagZero = 0#64 → l2Table i &&& offsetMask ≠ 0#64 := by
      intro hz hzero
      have hsum := hoff hz
      have hpos := toNat_ne_iff_ne.2 (hflags hz)
      rw [hzero] at hsum
      rw [toNat_ofNat] at hpos hsum
      omega
    have := getClusterType_cases (l2Table i)
    have := getClusterType_cases (l2Table 0)
    grind
  · refine (hrun i hi).2.2 ?_
    have := getClusterType_cases (l2Table 0)
    grind

/-! ## Lookups -/

namespace Qcow2Map

variable {m : Qcow2Map}

/-- The entry of a guest cluster, zero when it has no L2 table. -/
def l2Entry (m : Qcow2Map) (cluster : ℕ) : BitVec 64 :=
  match m.l2Offset (cluster / m.l2Size) with
  | none => 0
  | some l2Offset => m.l2Load l2Offset (cluster % m.l2Size)

theorem clusterSectors_pos (m : Qcow2Map) : 0 < m.clusterSectors := Nat.two_pow_pos _

theorem l2Size_pos (m : Qcow2Map) : 0 < m.l2Size := Nat.two_pow_pos _

theorem l1Bytes_le (m : Qcow2Map) : m.l2Size * m.clusterSize ≤ 2 ^ 39 := by
  have h' := m.le_bits
  rw [l2Size, clusterSize, clusterSectors, show 512 = 2 ^ 9 by rfl, ← pow_add, ← pow_add]
  exact Nat.pow_le_pow_right (by decide) (by omega)

theorem sector_div (m : Qcow2Map) (o : ℕ) : 512 * o / m.clusterSize = o / m.clusterSectors ∧
    512 * o / (m.l2Size * m.clusterSize) = o / m.clusterSectors / m.l2Size := by
  have h : 512 * o / m.clusterSize = o / m.clusterSectors := Nat.mul_div_mul_left _ _ (by decide)
  refine ⟨h, ?_⟩
  rw [mul_comm m.l2Size, ← Nat.div_div_eq_div_mul, h]

/-- The sectors from the beginning of the cluster to the end of the L2 table. -/
theorem nbAvailable_eq (m : Qcow2Map) (o : ℕ) :
    512 * o % (m.l2Size * m.clusterSize) =
      512 * (m.clusterSectors * (o / m.clusterSectors % m.l2Size) + o % m.clusterSectors) ∧
    (m.l2Size * m.clusterSize - 512 * o % (m.l2Size * m.clusterSize)) / 512 +
      o % m.clusterSectors =
      m.clusterSectors * (m.l2Size - o / m.clusterSectors % m.l2Size) := by
  have hmod : 512 * o % (m.l2Size * m.clusterSize) =
      512 * (m.clusterSectors * (o / m.clusterSectors % m.l2Size) + o % m.clusterSectors) := by
    rw [clusterSize, mul_left_comm, Nat.mul_mod_mul_left, mul_comm m.l2Size, Nat.mod_mul, add_comm]
  refine ⟨hmod, ?_⟩
  have hlt := Nat.mod_lt o m.clusterSectors_pos
  have hle : m.clusterSectors * (o / m.clusterSectors % m.l2Size + 1) ≤
      m.clusterSectors * m.l2Size :=
    Nat.mul_le_mul_left _ (Nat.mod_lt _ m.l2Size_pos)
  rw [Nat.mul_add_one] at hle
  rw [hmod, Nat.mul_sub, clusterSize, mul_left_comm, mul_comm m.l2Size]
  omega

theorem l2Entry_add {g i} (h : i < m.l2Size - g % m.l2Size) :
    m.l2Entry (g + i) = match m.l2Offset (g / m.l2Size) with
      | none => 0
      | some l2Offset => m.l2Load l2Offset (g % m.l2Size + i) := by
  have hdiv := Nat.div_add_mod g m.l2Size
  have hg : g + i = m.l2Size * (g / m.l2Size) + (g % m.l2Size + i) := by omega
  have hlt : g % m.l2Size + i < m.l2Size := by omega
  rw [l2Entry, hg, Nat.mul_add_div m.l2Size_pos, Nat.div_eq_of_lt hlt, Nat.mul_add_mod,
    Nat.mod_eq_of_lt hlt, add_zero]

/-- A lookup finds `n` sectors of one kind, from the beginning of the cluster on. -/
structure Found (m : Qcow2Map) (o num : ℕ) (x : Extent) (n : ℕ) : Prop where
  type : x.type = getClusterType (m.l2Entry (o / m.clusterSectors))
  version : x.type = .zero → 3 ≤ m.qcowVersion
  offset : x.type = .normal → x.clusterOffset = m.l2Entry (o / m.clusterSectors) &&& offsetMask
  pos : 0 < num + o % m.clusterSectors → m.clusterSectors ≤ n
  same : ∀ j < n, j < m.clusterSectors * (m.l2Size - o / m.clusterSectors % m.l2Size) →
    getClusterType (m.l2Entry (o / m.clusterSectors + j / m.clusterSectors)) = x.type ∧
    (x.type = .normal →
      (m.l2Entry (o / m.clusterSectors + j / m.clusterSectors) &&& offsetMask).toNat =
        x.clusterOffset.toNat + j / m.clusterSectors * m.clusterSize)
  num : x.num = (min n (min (num + o % m.clusterSectors)
    (m.clusterSectors * (m.l2Size - o / m.clusterSectors % m.l2Size))) : ℕ) -
      (o % m.clusterSectors : ℕ)

/-- A lookup fails on a zero cluster of an old image and else finds an extent. -/
theorem getClusterOffset_found (m : Qcow2Map) (o num : ℕ) (hnum : num < 2 ^ 31) :
    (m.getClusterOffset (512 * o) num = .error .eio ∧ m.qcowVersion < 3 ∧
      getClusterType (m.l2Entry (o / m.clusterSectors)) = .zero) ∨
    ∃ x n, m.getClusterOffset (512 * o) num = .ok x ∧ m.Found o num x n := by
  have hS := m.clusterSectors_pos
  have hidx := Nat.mod_lt o hS
  obtain ⟨g, hg⟩ := @exists_eq _ (o / m.clusterSectors)
  have hwrap : (num + o % m.clusterSectors) % 2 ^ 32 = num + o % m.clusterSectors := by
    have h' := m.le_bits
    have hle : m.clusterSectors ≤ 2 ^ 12 := Nat.pow_le_pow_right (by decide) (by omega)
    omega
  have hlt : ∀ {j}, j < m.clusterSectors * (m.l2Size - g % m.l2Size) →
      j / m.clusterSectors < m.l2Size - g % m.l2Size := Nat.div_lt_of_lt_mul
  rw [getClusterOffset]
  rw [Nat.mul_div_cancel_left o (by decide), (m.nbAvailable_eq o).2, (m.sector_div o).2,
    (m.sector_div o).1, hwrap, ← hg]
  cases hl : m.l2Offset (g / m.l2Size) with
  | none =>
    have hzero : ∀ i < m.l2Size - g % m.l2Size, m.l2Entry (g + i) = 0 := by
      intro i hi
      rw [l2Entry_add hi, hl]
    have hentry : m.l2Entry g = 0 := hzero 0 (Nat.sub_pos_of_lt (Nat.mod_lt _ m.l2Size_pos))
    refine .inr ⟨_, m.clusterSectors * (m.l2Size - g % m.l2Size), rfl, ?_, nofun, nofun, ?_, ?_, ?_⟩
    · rw [← hg, hentry]
      rfl
    · intro _
      exact Nat.le_mul_of_pos_right _ (Nat.sub_pos_of_lt (Nat.mod_lt _ m.l2Size_pos))
    · intro j _ hj
      rw [← hg] at hj ⊢
      rw [hzero _ (hlt hj)]
      exact ⟨rfl, nofun⟩
    · rw [← hg]
      push_cast
      rfl
  | some l2Offset =>
    dsimp only
    obtain ⟨l2Table, htable⟩ : ∃ t, t = fun i => m.l2Load l2Offset (g % m.l2Size + i) := ⟨_, rfl⟩
    have hentry : ∀ i < m.l2Size - g % m.l2Size, m.l2Entry (g + i) = l2Table i := by
      intro i hi
      rw [l2Entry_add hi, hl, htable]
    have hfirst : m.l2Entry g = l2Table 0 :=
      hentry 0 (Nat.sub_pos_of_lt (Nat.mod_lt _ m.l2Size_pos))
    obtain ⟨needed, hneeded⟩ : ∃ n, n = min (num + o % m.clusterSectors)
      (m.clusterSectors * (m.l2Size - g % m.l2Size)) := ⟨_, rfl⟩
    obtain ⟨nb, hnb⟩ : ∃ n, n = (needed * 512 + (m.clusterSize - 1)) / m.clusterSize := ⟨_, rfl⟩
    have hcs : m.clusterSize = 512 * m.clusterSectors := rfl
    have hsmall : nb * m.clusterSize < 2 ^ 57 := by
      have hmul := Nat.div_mul_le_self (needed * 512 + (m.clusterSize - 1)) m.clusterSize
      have hbytes := m.l1Bytes_le
      have hone := Nat.le_mul_of_pos_left m.clusterSize m.l2Size_pos
      rw [← hnb] at hmul
      omega
    -- what a run of `c` entries gives
    have hfound : ∀ {c type co}, type = getClusterType (l2Table 0) →
        Run m.clusterSize l2Table nb c → (type = .zero → 3 ≤ m.qcowVersion) →
        (type = .normal → co = l2Table 0 &&& offsetMask) → m.Found o num
          ⟨type, (min (c * m.clusterSectors : ℕ) needed : ℤ) - (o % m.clusterSectors : ℕ), co⟩
          (c * m.clusterSectors) := by
      rintro c type co rfl hrun hversion hoffset
      refine ⟨by rw [← hg, hfirst], hversion, by rwa [← hg, hfirst], fun hpos => ?_, ?_, ?_⟩
      · have hn : 0 < needed := by
          have hroom := Nat.le_mul_of_pos_right m.clusterSectors
            (Nat.sub_pos_of_lt (Nat.mod_lt g m.l2Size_pos))
          omega
        have hnb' : 0 < nb := hnb ▸ Nat.div_pos (by omega) (by omega)
        exact Nat.le_mul_of_pos_left _ (hrun.pos hnb')
      · intro j hj hj'
        rw [← hg] at hj' ⊢
        have hc : j / m.clusterSectors < c := Nat.div_lt_of_lt_mul (by rwa [mul_comm])
        rw [hentry _ (hlt hj')]
        refine ⟨hrun.type _ hc, fun hnormal => ?_⟩
        rw [hoffset hnormal]
        exact hrun.offset hnormal _ hc
      · rw [← hg, ← hneeded]
        push_cast
        rfl
    rw [← hneeded, ← hnb, ← htable, hfirst, show m.l2Load l2Offset (g % m.l2Size + 0) = l2Table 0 by
      rw [htable]]
    have heven : m.clusterSize % 2 = 0 := by omega
    cases htype : getClusterType (l2Table 0) with
    | compressed =>
      refine .inr ⟨_, _, rfl, hfound htype.symm ⟨fun _ => one_pos, fun i hi => ?_, ?_⟩ nofun nofun⟩
      · rw [Nat.lt_one_iff.1 hi]
      · rw [htype]
        nofun
    | zero =>
      obtain ⟨c, hc, hrun⟩ := run_countContiguousClusters hsmall heven (.inl htype)
      rw [hc]
      split_ifs with hv
      · exact .inl ⟨rfl, hv, rfl⟩
      · exact .inr ⟨_, _, rfl, hfound htype.symm hrun (fun _ => not_lt.1 hv) nofun⟩
    | unallocated =>
      exact .inr ⟨_, _, rfl, hfound htype.symm (run_countContiguousFreeClusters htype) nofun nofun⟩
    | normal =>
      obtain ⟨c, hc, hrun⟩ := run_countContiguousClusters hsmall heven (.inr htype)
      rw [hc]
      exact .inr ⟨_, _, rfl, hfound htype.symm hrun nofun fun _ => rfl⟩

/-- The sectors found are those asked for, or fewer, and each of them is found in the same way when
it is looked up alone. -/
structure ExtentOk (m : Qcow2Map) (offset num : ℕ) (x : Extent) : Prop where
  nonneg : 0 ≤ x.num
  pos : 1 ≤ num → 1 ≤ x.num
  le : x.num ≤ num
  inTable : (offset % (m.l2Size * m.clusterSize) : ℕ) + 512 * x.num ≤ (m.l2Size * m.clusterSize : ℕ)
  sector : ∀ k : ℕ, k < x.num → ∃ x', m.getClusterOffset (offset + 512 * k) 1 = .ok x' ∧
    x'.type = x.type ∧ (x.type = .normal →
      x'.clusterOffset.toNat + (offset + 512 * k) / 512 % m.clusterSectors * 512 =
        x.clusterOffset.toNat + offset / 512 % m.clusterSectors * 512 + 512 * k)

theorem Found.extentOk {o num x} (h : m.Found o num x n) : m.ExtentOk (512 * o) num x := by
  have hS := m.clusterSectors_pos
  have hidx := Nat.mod_lt o hS
  obtain ⟨room, hroom⟩ : ∃ n, n = m.clusterSectors * (m.l2Size -
    o / m.clusterSectors % m.l2Size) := ⟨_, rfl⟩
  have hge : m.clusterSectors ≤ room := hroom ▸ Nat.le_mul_of_pos_right _
    (Nat.sub_pos_of_lt (Nat.mod_lt _ m.l2Size_pos))
  have hnum := h.num
  have hpos := h.pos
  have hsame := h.same
  refine ⟨by omega, by omega, by omega, ?_, fun k hk => ?_⟩
  · have havail := (m.nbAvailable_eq o).2
    omega
  · obtain ⟨htype, hoffset⟩ := hsame (o % m.clusterSectors + k) (by omega) (by omega)
    have hmod := Nat.div_add_mod o m.clusterSectors
    have hdiv : (o + k) / m.clusterSectors =
        o / m.clusterSectors + (o % m.clusterSectors + k) / m.clusterSectors := by
      nth_rewrite 1 [← hmod]
      rw [add_assoc, Nat.mul_add_div hS]
    rw [← hdiv] at htype hoffset
    rw [← Nat.mul_add]
    rcases m.getClusterOffset_found (o + k) 1 (by decide) with
      ⟨-, hv, hzero⟩ | ⟨x', n', hx', hfound⟩
    · have := h.version (htype.symm.trans hzero)
      omega
    · have hx := hfound.type.trans htype
      refine ⟨x', hx', hx, fun hnormal => ?_⟩
      have hk' : (o + k) % m.clusterSectors = (o % m.clusterSectors + k) % m.clusterSectors := by
        rw [Nat.mod_add_mod]
      have hj := Nat.div_add_mod (o % m.clusterSectors + k) m.clusterSectors
      rw [hfound.offset (hx.trans hnormal), hoffset hnormal,
        Nat.mul_div_cancel_left _ (by decide), Nat.mul_div_cancel_left _ (by decide), clusterSize,
        mul_left_comm, mul_comm _ m.clusterSectors]
      omega

/-- A lookup of an extent is the lookup of each of its sectors. -/
theorem getClusterOffset_extent (m : Qcow2Map) {offset num : ℕ} (hoffset : 512 ∣ offset)
    (hnum : num < 2 ^ 31) :
    match m.getClusterOffset offset num with
    | .ok x => m.ExtentOk offset num x
    | .error f => f = .eio ∧ m.qcowVersion < 3 ∧
      getClusterType (m.l2Entry (offset / m.clusterSize)) = .zero := by
  obtain ⟨o, rfl⟩ := hoffset
  rcases m.getClusterOffset_found o num hnum with ⟨hx, hv, hzero⟩ | ⟨x, n, hx, hfound⟩
  · rw [hx, (m.sector_div o).1]
    exact ⟨rfl, hv, hzero⟩
  · rw [hx]
    exact hfound.extentOk

/-- An image with one L2 table, whose first three clusters follow each other in the file. -/
def threeClusters : Qcow2Map :=
  ⟨16, 3, [0x10000#64], fun i => if i < 0x2003 then .ofNat 64 (0x10000 * (i - 0x1ffe)) else 0,
    by decide, by decide⟩

/-- A request that starts inside the first of these clusters and ends inside the third is one
extent. -/
theorem getClusterOffset_extent_threeClusters :
    threeClusters.getClusterOffset 1024 300 = .ok ⟨.normal, 300, 0x20000#64⟩ ∧
      threeClusters.ExtentOk 1024 300 ⟨.normal, 300, 0x20000#64⟩ := by
  have hx : threeClusters.getClusterOffset 1024 300 = .ok ⟨.normal, 300, 0x20000#64⟩ := by
    decide +kernel
  have h := @getClusterOffset_extent threeClusters 1024 300 (by decide) (by decide)
  rw [hx] at h
  exact ⟨hx, h⟩

/-- An image with one L2 table, all of whose entries are `entry`. -/
def oneTable (qcowVersion : ℕ) (entry : BitVec 64) : Qcow2Map :=
  ⟨16, qcowVersion, [0x10000#64], fun _ => entry, by decide, by decide⟩

/-- The zero flag in a version 2 image. -/
theorem getClusterOffset_zero_v2 : (oneTable 2 1).qcowVersion = 2 ∧
    (∀ i, getClusterType ((oneTable 2 1).file i) ≠ .normal) ∧
    (oneTable 2 1).getClusterOffset 0 1 = .error .eio := by
  refine ⟨rfl, fun i => ?_, ?_⟩
  · change getClusterType 1#64 ≠ _
    decide
  · rcases (oneTable 2 1).getClusterOffset_found 0 1 (by decide) with h | ⟨x, n, -, hx⟩
    · exact h.1
    · exact absurd (hx.version hx.type) (by decide)

end Qcow2Map

end QemuArm
