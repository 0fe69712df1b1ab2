import QemuArm.Qcow2RefUpdate
import QemuArm.Reach

/-!
# Space for compressed clusters

`qcow2_alloc_bytes` puts compressed clusters next to each other, with a cursor `free_byte_offset`
into the host cluster that is being filled. Freeing a compressed cluster does not look at the
cursor. When the last one of the host cluster is freed, the cursor stays in a cluster that the next
allocation can take, and the next compressed cluster is put into that one
(`compressedSafe_fail`). As long as this does not happen, and counts and offsets do not get too
large, no space is shared (`compressedSafe_reach`).

Refcounts are those of `get_refcount`, and `addRefcounts` stands for `update_refcount` where there
are refcount blocks (`updateRefcount_addRefcounts`). Allocations that need a new refcount block are
not part of this model.
-/

namespace QemuArm

open List Option RefcountState Nat

/-- A compressed cluster in use, with the entry of the L2 table and, as history, the host clusters
whose refcount was raised for it. -/
structure CompressedCluster where
  offset : ℕ
  size : ℕ
  entry : ℕ
  raised : List ℕ

structure ByteAlloc where
  clusterBits : ℕ
  refcount : ℕ → ℕ
  /-- the clusters for which there is a refcount block -/
  described : ℕ → Bool
  freeClusterIndex : ℕ
  freeByteOffset : ℕ
  compressed : List CompressedCluster
  /-- normal clusters in use -/
  normal : List ℕ
  bits_le : 9 ≤ clusterBits
  le_bits : clusterBits ≤ 21

/-- The largest refcount. -/
def maxRefcount : ℕ := 0xffff

inductive ByteOp
  | allocCompressed (size : ℕ)
  | allocClusters (n : ℕ)
  | freeCompressed (i : ℕ)

namespace ByteAlloc

variable (s : ByteAlloc)

def clusterSize : ℕ := 2 ^ s.clusterBits

/-- The cluster that is being filled. -/
def cursor : ℕ := s.freeByteOffset / s.clusterSize

def csizeShift : ℕ := 62 - (s.clusterBits - 8)

def csizeMask : ℕ := 2 ^ (s.clusterBits - 8) - 1

/-- `update_refcount` for a list of clusters that are described. After an error what was done is
taken back, but `free_cluster_index` stays at a cluster that had no references in between. -/
def addRefcounts (l : List ℕ) (addend : ℤ) : ByteAlloc × Bool :=
  let inRange (k : ℕ) : Bool := 0 ≤ s.refcount k + addend ∧ s.refcount k + addend ≤ maxRefcount
  let unused (k : ℕ) : Bool := s.refcount k + addend = 0
  if l.all inRange then
    ({ s with
      refcount := fun k => if k ∈ l then (s.refcount k + addend).toNat else s.refcount k
      freeClusterIndex := (l.filter unused).foldl min s.freeClusterIndex }, true)
  else
    let back := (l.takeWhile inRange).filter fun k => unused k || s.refcount k = 0
    ({ s with freeClusterIndex := back.foldl min s.freeClusterIndex }, false)

/-- The loop of `alloc_clusters_noref` : the value of `free_cluster_index` after `n` free clusters
in a row; `run` of them were seen. -/
def freeRun (n : ℕ) : ℕ → ℕ → ℕ → Option ℕ
  | 0, _, _ => none
  | fuel + 1, i, run =>
    if s.refcount i ≠ 0 then freeRun n fuel (i + 1) 0
    else if run + 1 = n then some (i + 1)
    else freeRun n fuel (i + 1) (run + 1)

/-- `qcow2_alloc_clusters`, when the clusters that it finds are described. Otherwise it allocates a
refcount block and searches again, for which this is `none`. -/
def allocClusters (fuel n : ℕ) : Option (ByteAlloc × ℕ) :=
  ((s.freeRun n fuel s.freeClusterIndex 0).filter fun i =>
    (range' (i - n) n).all s.described).map fun i =>
    (({ s with freeClusterIndex := i }.addRefcounts (range' (i - n) n) 1).1, i - n)

/-- The part of `qcow2_alloc_bytes` for data that fits into the current cluster. -/
def takeBytes (size : ℕ) (raised : List ℕ) : ByteAlloc × ℕ × List ℕ :=
  let offset := s.freeByteOffset
  let next := if offset % s.clusterSize + size = s.clusterSize then 0 else offset + size
  let t := { s with freeByteOffset := next }
  if offset % s.clusterSize ≠ 0 then
    let r := t.addRefcounts [s.cursor] 1
    (r.1, offset, if r.2 then s.cursor :: raised else raised)
  else (t, offset, raised)

/-- `qcow2_alloc_bytes` : the offset, and the clusters whose refcount was raised. -/
def allocBytes (fuel size : ℕ) : Option (ByteAlloc × ℕ × List ℕ) :=
  if size = 0 ∨ s.clusterSize < size then none
  else if s.freeByteOffset = 0 then
    (s.allocClusters fuel 1).map fun r =>
      { r.1 with freeByteOffset := r.2 * s.clusterSize }.takeBytes size [r.2]
  else if size ≤ s.clusterSize - s.freeByteOffset % s.clusterSize then some (s.takeBytes size [])
  else
    (s.allocClusters fuel 1).map fun r =>
      if s.cursor + 1 = r.2 then
        let r' := r.1.addRefcounts [s.cursor] 1
        ({ r'.1 with freeByteOffset := s.freeByteOffset + size }, s.freeByteOffset,
          if r'.2 then [s.cursor, r.2] else [r.2])
      else { r.1 with freeByteOffset := r.2 * s.clusterSize }.takeBytes size [r.2]

/-- The entry that `qcow2_alloc_compressed_cluster_offset` makes. -/
def compressedEntry (offset size : ℕ) : ℕ :=
  let nbCsectors := (offset + size - 1) / 512 - offset / 512
  offset ||| (2 ^ 62 ||| nbCsectors <<< s.csizeShift)

/-- The clusters that `qcow2_free_any_clusters` frees for the entry of a compressed cluster. -/
def freedClusters (entry : ℕ) : List ℕ :=
  let nbCsectors := (entry >>> s.csizeShift &&& s.csizeMask) + 1
  let start := (entry &&& (2 ^ s.csizeShift - 1)) / 512 * 512
  range' (start / s.clusterSize)
    ((start + nbCsectors * 512 - 1) / s.clusterSize + 1 - start / s.clusterSize)

/-- The compressed cluster that was allocated is in use. -/
def record (size : ℕ) (r : ByteAlloc × ℕ × List ℕ) : ByteAlloc :=
  { r.1 with compressed := ⟨r.2.1, size, s.compressedEntry r.2.1 size, r.2.2⟩ :: s.compressed }

def step (fuel : ℕ) : ByteOp → ByteAlloc → Option ByteAlloc
  | .allocCompressed size, s => (s.allocBytes fuel size).map (s.record size)
  | .allocClusters n, s =>
    if n = 0 then none
    else (s.allocClusters fuel n).map fun r =>
      { r.1 with normal := range' r.2 n ++ s.normal }
  | .freeCompressed i, s =>
    (s.compressed[i]?).map fun e =>
      { (s.addRefcounts (s.freedClusters e.entry) (-1)).1 with
        compressed := s.compressed.eraseIdx i }

end ByteAlloc

/-! ## The clusters of an entry -/

/-- The compressed cluster has bytes in the host cluster `k`. -/
def CompressedCluster.Touches (e : CompressedCluster) (clusterSize k : ℕ) : Prop :=
  k * clusterSize < e.offset + e.size ∧ e.offset < (k + 1) * clusterSize

instance CompressedCluster.decidableTouches (e : CompressedCluster) (clusterSize k : ℕ) :
    Decidable (e.Touches clusterSize k) :=
  inferInstanceAs (Decidable (_ ∧ _))

/-- The ranges have no byte in common. -/
def CompressedCluster.Disjoint (e e' : CompressedCluster) : Prop :=
  e.offset + e.size ≤ e'.offset ∨ e'.offset + e'.size ≤ e.offset

namespace ByteAlloc

variable {s s' : ByteAlloc} {e : CompressedCluster} {k : ℕ}

/-- The entry is that of the range, and the range fits into an entry. -/
structure EntryOk (s : ByteAlloc) (e : CompressedCluster) : Prop where
  pos : 0 < e.size
  le : e.size ≤ s.clusterSize
  fits : e.offset + e.size ≤ 2 ^ s.csizeShift
  entry : e.entry = s.compressedEntry e.offset e.size
  raised : ∀ k, k ∈ e.raised ↔ e.Touches s.clusterSize k

theorem sectors (s : ByteAlloc) : s.clusterSize = 512 * 2 ^ (s.clusterBits - 9) := by
  have h := s.bits_le
  rw [clusterSize, show 512 = 2 ^ 9 by rfl, ← pow_add]
  congr 1
  omega

theorem clusterSize_pos (s : ByteAlloc) : 0 < s.clusterSize := Nat.two_pow_pos _

variable {offset size : ℕ}

/-- The parts of an entry do not overlap. -/
theorem compressedEntry_eq (hpos : 0 < size) (hle : size ≤ s.clusterSize)
    (hfits : offset + size ≤ 2 ^ s.csizeShift) :
    s.compressedEntry offset size = 2 ^ s.csizeShift * (2 ^ (s.clusterBits - 8) +
      ((offset + size - 1) / 512 - offset / 512)) + offset ∧
    (offset + size - 1) / 512 - offset / 512 < 2 ^ (s.clusterBits - 8) := by
  have hbits := s.bits_le
  have hbits' := s.le_bits
  have hsum : s.csizeShift + (s.clusterBits - 8) = 62 := by
    rw [csizeShift]
    omega
  obtain ⟨n, hn⟩ := @exists_eq _ ((offset + size - 1) / 512 - offset / 512)
  have hlt : n < 2 ^ (s.clusterBits - 8) := by
    have hcs := s.sectors
    rw [show s.clusterBits - 8 = s.clusterBits - 9 + 1 by omega, pow_succ]
    omega
  refine ⟨?_, hn ▸ hlt⟩
  have hshift : n <<< s.csizeShift = 2 ^ s.csizeShift * n := by
    rw [shiftLeft_eq, mul_comm]
  have hlow : 2 ^ s.csizeShift * n < 2 ^ (s.csizeShift + (s.clusterBits - 8)) := by
    rw [pow_add]
    exact Nat.mul_lt_mul_of_pos_left hlt (Nat.two_pow_pos _)
  have hhigh : 2 ^ (s.csizeShift + (s.clusterBits - 8)) ||| 2 ^ s.csizeShift * n =
      2 ^ s.csizeShift * (2 ^ (s.clusterBits - 8) + n) := by
    have hor := two_pow_add_eq_or_of_lt hlow 1
    rw [mul_one] at hor
    rw [← hor, mul_add, pow_add]
  have hoffset : offset < 2 ^ s.csizeShift := by omega
  rw [compressedEntry, ← hn, hshift, ← hsum, hhigh, Nat.or_comm, two_pow_add_eq_or_of_lt hoffset]

theorem touches_iff (hpos : 0 < e.size) : e.Touches s.clusterSize k ↔
    e.offset / s.clusterSize ≤ k ∧ k ≤ (e.offset + e.size - 1) / s.clusterSize := by
  have hcs := s.clusterSize_pos
  rw [CompressedCluster.Touches, Nat.le_div_iff_mul_le hcs, ← Nat.lt_succ_iff,
    div_lt_iff_lt_mul hcs, succ_eq_add_one]
  omega

/-- Exactly the clusters that have bytes of the range are freed with its entry. -/
theorem EntryOk.mem_freedClusters (h : s.EntryOk e) :
    k ∈ s.freedClusters e.entry ↔ e.Touches s.clusterSize k := by
  obtain ⟨hentry, hlt⟩ := compressedEntry_eq h.pos h.le h.fits
  have hpos := h.pos
  have hfits := h.fits
  obtain ⟨n, hn⟩ := @exists_eq _ ((e.offset + e.size - 1) / 512 - e.offset / 512)
  rw [← hn] at hentry hlt
  have hoffset : e.offset < 2 ^ s.csizeShift := by omega
  have hnb : e.entry >>> s.csizeShift &&& s.csizeMask = n := by
    rw [h.entry, hentry, Nat.shiftRight_eq_div_pow, Nat.mul_add_div (Nat.two_pow_pos _),
      div_eq_of_lt hoffset, csizeMask, and_two_pow_sub_one_eq_mod, add_zero,
      add_mod_left, mod_eq_of_lt hlt]
  have hstart : e.entry &&& (2 ^ s.csizeShift - 1) = e.offset := by
    rw [h.entry, hentry, and_two_pow_sub_one_eq_mod, mul_add_mod, mod_eq_of_lt hoffset]
  -- the sectors are in the clusters of the bytes
  have hfirst : e.offset / 512 * 512 / s.clusterSize = e.offset / s.clusterSize := by
    rw [s.sectors, ← Nat.div_div_eq_div_mul, ← Nat.div_div_eq_div_mul,
      Nat.mul_div_cancel _ (by decide)]
  have hlast : (e.offset / 512 * 512 + (n + 1) * 512 - 1) / s.clusterSize =
      (e.offset + e.size - 1) / s.clusterSize := by
    have hsector : (e.offset / 512 * 512 + (n + 1) * 512 - 1) / 512 =
        (e.offset + e.size - 1) / 512 := by omega
    rw [s.sectors, ← Nat.div_div_eq_div_mul, ← Nat.div_div_eq_div_mul, hsector]
  rw [freedClusters, hnb, hstart, hfirst, hlast, mem_range'_1, touches_iff h.pos]
  omega

/-! ## Counts and references -/

/-- The references to a cluster from what is in use. -/
def liveCount (s : ByteAlloc) (k : ℕ) : ℕ :=
  s.compressed.countP (fun e => e.Touches s.clusterSize k) + s.normal.count k

/-- The cursor is behind everything in its cluster, and the cluster is in use. -/
structure CursorOk (s : ByteAlloc) : Prop where
  mod : s.freeByteOffset % s.clusterSize ≠ 0
  counted : 1 ≤ s.refcount s.cursor
  fits : (s.cursor + 1) * s.clusterSize ≤ 2 ^ s.csizeShift
  normal : s.cursor ∉ s.normal
  behind : ∀ e ∈ s.compressed, e.offset + e.size ≤ s.freeByteOffset ∨
    (s.cursor + 1) * s.clusterSize ≤ e.offset

structure BytesInv (s : ByteAlloc) : Prop where
  le_max : ∀ k, s.refcount k ≤ maxRefcount
  count : ∀ k, s.liveCount k ≤ s.refcount k
  entries : ∀ e ∈ s.compressed, s.EntryOk e
  disjoint : s.compressed.Pairwise CompressedCluster.Disjoint
  normal : ∀ k ∈ s.normal, ∀ e ∈ s.compressed, ¬ e.Touches s.clusterSize k
  cursor : s.freeByteOffset ≠ 0 → s.CursorOk

theorem BytesInv.not_touches (h : s.BytesInv) (hk : s.refcount k = 0) (he : e ∈ s.compressed) :
    ¬ e.Touches s.clusterSize k := by
  intro ht
  have hpos : 0 < s.compressed.countP (fun e => e.Touches s.clusterSize k) :=
    countP_pos_iff.2 ⟨e, he, decide_eq_true ht⟩
  have hle := h.count k
  rw [liveCount] at hle
  omega

theorem BytesInv.not_normal (h : s.BytesInv) (hk : s.refcount k = 0) : k ∉ s.normal := by
  intro hn
  have hpos := count_pos_iff.2 hn
  have hle := h.count k
  rw [liveCount] at hle
  omega

/-- A new compressed cluster, with a reference more for each of its host clusters. -/
theorem BytesInv.alloc (h : s.BytesInv) {refcount i} (he : s.EntryOk e)
    (hmax : ∀ k, refcount k ≤ maxRefcount)
    (hcount : ∀ k, s.refcount k + (if e.Touches s.clusterSize k then 1 else 0) ≤ refcount k)
    (hdisjoint : ∀ x ∈ s.compressed, e.Disjoint x)
    (hnormal : ∀ k ∈ s.normal, ¬ e.Touches s.clusterSize k)
    (hcursor : offset ≠ 0 → CursorOk { s with
      refcount := refcount, freeByteOffset := offset, compressed := e :: s.compressed }) :
    BytesInv { s with
      refcount := refcount, freeClusterIndex := i, freeByteOffset := offset
      compressed := e :: s.compressed } where
  le_max := hmax
  count k := by
    refine le_trans ?_ (hcount k)
    have hle := h.count k
    rw [liveCount] at hle ⊢
    change countP (fun x => decide (x.Touches s.clusterSize k)) (e :: s.compressed) +
      s.normal.count k ≤ _
    rw [countP_cons]
    simp only [decide_eq_true_eq]
    omega
  entries x hx := by
    rcases mem_cons.1 hx with rfl | hx
    · exact ⟨he.pos, he.le, he.fits, he.entry, he.raised⟩
    · have hx := h.entries x hx
      exact ⟨hx.pos, hx.le, hx.fits, hx.entry, hx.raised⟩
  disjoint := pairwise_cons.2 ⟨hdisjoint, h.disjoint⟩
  normal k hk x hx := by
    rcases mem_cons.1 hx with rfl | hx
    · exact hnormal k hk
    · exact h.normal k hk x hx
  cursor hne := by
    have hc := hcursor hne
    exact ⟨hc.mod, hc.counted, hc.fits, hc.normal, hc.behind⟩

/-! ## The steps -/

theorem addRefcounts_ok {l : List ℕ} {addend : ℤ}
    (h : ∀ k ∈ l, 0 ≤ s.refcount k + addend ∧ s.refcount k + addend ≤ maxRefcount) :
    s.addRefcounts l addend = ({ s with
      refcount := fun k => if k ∈ l then (s.refcount k + addend).toNat else s.refcount k
      freeClusterIndex := (l.filter fun k => s.refcount k + addend = 0).foldl min
        s.freeClusterIndex }, true) := by
  exact if_pos (all_eq_true.2 fun k hk => decide_eq_true (h k hk))

theorem addRefcounts_one (hk : s.refcount k < maxRefcount) :
    s.addRefcounts [k] 1 = ({ s with
      refcount := fun j => s.refcount j + (if j = k then 1 else 0) }, true) := by
  have hfilter : [k].filter (fun j => decide ((s.refcount j : ℤ) + 1 = 0)) = [] := by
    rw [filter_eq_nil_iff]
    intro j _
    rw [decide_eq_true_eq]
    omega
  have hcount : (fun j => if j ∈ [k] then ((s.refcount j : ℤ) + 1).toNat else s.refcount j) =
      fun j => s.refcount j + (if j = k then 1 else 0) := by
    funext j
    simp only [mem_singleton]
    split <;> omega
  rw [addRefcounts_ok, hfilter, hcount, foldl_nil]
  intro j hj
  rw [mem_singleton.1 hj]
  omega

/-- The search ends behind `n` free clusters, of which the first ones were seen before. -/
theorem freeRun_spec {n} : ∀ {fuel i run j : ℕ}, s.freeRun n fuel i run = some j →
    run ≤ i → (∀ k, i - run ≤ k → k < i → s.refcount k = 0) →
    n ≤ j ∧ ∀ k, j - n ≤ k → k < j → s.refcount k = 0
  | 0, _, _, _, h, _, _ => by cases h
  | fuel + 1, i, run, j, h, hle, hseen => by
    rw [freeRun] at h
    split at h
    · exact freeRun_spec h (zero_le _) fun k hk hk' => by omega
    · next hi =>
      have hseen' : ∀ k, i - run ≤ k → k < i + 1 → s.refcount k = 0 := by
        intro k hk hk'
        rcases Nat.lt_succ_iff_lt_or_eq.1 hk' with hk' | rfl
        · exact hseen k hk hk'
        · exact not_not.1 hi
      split at h
      · next hn =>
        cases h
        exact ⟨by omega, fun k hk => hseen' k (by omega)⟩
      · exact freeRun_spec h (by omega) fun k hk => hseen' k (by omega)

/-- One cluster is the first that is free. -/
theorem freeRun_one_le {k} (hk : s.refcount k = 0) : ∀ {fuel i j : ℕ},
    s.freeRun 1 fuel i 0 = some j → i ≤ k → j ≤ k + 1
  | 0, _, _, h, _ => by cases h
  | fuel + 1, i, j, h, hle => by
    rw [freeRun] at h
    split at h
    · next hi =>
      have hne : i ≠ k := fun heq => hi (heq ▸ hk)
      exact freeRun_one_le hk h (by omega)
    · cases h
      omega

/-- A cluster that entries can point to is free. -/
def Room (s : ByteAlloc) : Prop :=
  ∃ k, s.freeClusterIndex ≤ k ∧ (k + 1) * s.clusterSize ≤ 2 ^ s.csizeShift ∧ s.refcount k = 0

variable {fuel : ℕ}

theorem allocClusters_one {r} (h : s.allocClusters fuel 1 = some r) :
    s.refcount r.2 = 0 ∧ (s.Room → (r.2 + 1) * s.clusterSize ≤ 2 ^ s.csizeShift) ∧
      ∃ i, r.1 = { s with
        refcount := fun j => s.refcount j + (if j = r.2 then 1 else 0)
        freeClusterIndex := i } := by
  obtain ⟨j, hj, hr⟩ := map_eq_some_iff.1 h
  replace hj := (filter_eq_some_iff.1 hj).1
  obtain ⟨t, c⟩ := r
  obtain ⟨ht, rfl⟩ := Prod.mk.inj hr
  obtain ⟨hle, hfree⟩ := freeRun_spec hj (zero_le _) fun k hk hk' => by omega
  have hzero := hfree (j - 1) le_rfl (by omega)
  refine ⟨hzero, fun ⟨k, hk, hfits, hk0⟩ => ?_, j, ?_⟩
  · have := freeRun_one_le hk0 hj hk
    exact (Nat.mul_le_mul_right _ (by omega)).trans hfits
  · have hone := addRefcounts_one (s := { s with freeClusterIndex := j }) (k := j - 1)
      (hzero.trans_lt (by decide))
    rw [range'_one, hone] at ht
    exact ht.symm

/-- One reference more for a cluster. -/
def raise (refcount : ℕ → ℕ) (k : ℕ) : ℕ → ℕ := fun j => refcount j + (if j = k then 1 else 0)

theorem takeBytes_inside {raised} (hmod : s.freeByteOffset % s.clusterSize ≠ 0)
    (hmax : s.refcount s.cursor < maxRefcount) :
    s.takeBytes size raised = ({ s with
      refcount := raise s.refcount s.cursor
      freeByteOffset := if s.freeByteOffset % s.clusterSize + size = s.clusterSize then 0
        else s.freeByteOffset + size }, s.freeByteOffset,
      s.cursor :: raised) := by
  rw [takeBytes]
  rw [if_pos hmod, addRefcounts_one (by exact hmax)]
  rfl

/-- A new host cluster can be had within what entries can point to, there is room for a reference
to the cursor's cluster, and that cluster is not freed. -/
def StepOk (s : ByteAlloc) : ByteOp → Prop
  | .allocCompressed size =>
    (s.freeByteOffset = 0 ∨ s.clusterSize < s.freeByteOffset % s.clusterSize + size → s.Room) ∧
    (s.freeByteOffset ≠ 0 → s.refcount s.cursor < maxRefcount)
  | .allocClusters _ => True
  | .freeCompressed i => ∀ e ∈ s.compressed[i]?, s.freeByteOffset ≠ 0 →
    e.Touches s.clusterSize s.cursor →
    2 ≤ s.refcount s.cursor

theorem raise_le (h : s.BytesInv) (hk : s.refcount k < maxRefcount) (j : ℕ) :
    raise s.refcount k j ≤ maxRefcount := by
  have := h.le_max j
  rw [raise]
  split
  · next hj =>
    rw [hj]
    exact hk
  · exact this

/-- A cursor at `m` in the cluster `c`. -/
theorem cursorOk_of {c m} (hoffset : s.freeByteOffset = c * s.clusterSize + m) (hm : 0 < m)
    (hlt : m < s.clusterSize) (hcounted : 1 ≤ s.refcount c)
    (hfits : (c + 1) * s.clusterSize ≤ 2 ^ s.csizeShift) (hnormal : c ∉ s.normal)
    (hbehind : ∀ e ∈ s.compressed, e.offset + e.size ≤ c * s.clusterSize + m ∨
      (c + 1) * s.clusterSize ≤ e.offset) : s.CursorOk := by
  have hcs := s.clusterSize_pos
  have hdiv : s.cursor = c := by
    rw [cursor, hoffset, mul_comm, mul_add_div hcs, div_eq_of_lt hlt, add_zero]
  have hmod : s.freeByteOffset % s.clusterSize = m := by
    rw [hoffset, mul_comm, mul_add_mod, mod_eq_of_lt hlt]
  refine ⟨?_, ?_, ?_, ?_, ?_⟩
  · omega
  · rwa [hdiv]
  · rwa [hdiv]
  · rwa [hdiv]
  · rwa [hdiv, hoffset]

section

variable (h : s.BytesInv)
include h

namespace BytesInv

/-- Ranges in a cluster without references have nothing in common with those in use. -/
theorem free_disjoint (hk : s.refcount k = 0) (he : e ∈ s.compressed) :
    e.offset + e.size ≤ k * s.clusterSize ∨ (k + 1) * s.clusterSize ≤ e.offset := by
  have hnot := h.not_touches hk he
  rw [CompressedCluster.Touches] at hnot
  omega

/-- A range that ends at `m` in the cluster `last`, with nothing behind it there. -/
theorem allocAt (last m : ℕ) {refcount i next raised} (hpos : 0 < size) (hle : size ≤ s.clusterSize)
    (hend : offset + size = last * s.clusterSize + m) (hm : 0 < m) (hmle : m ≤ s.clusterSize)
    (hfits : (last + 1) * s.clusterSize ≤ 2 ^ s.csizeShift)
    (hraised : ∀ k, k ∈ raised ↔ offset / s.clusterSize ≤ k ∧ k ≤ last)
    (hmax : ∀ k, refcount k ≤ maxRefcount)
    (hcount : ∀ k, s.refcount k + (if k ∈ raised then 1 else 0) ≤ refcount k)
    (hfree : ∀ x ∈ s.compressed, x.offset + x.size ≤ offset ∨
      (last + 1) * s.clusterSize ≤ x.offset) (hnormal : ∀ k ∈ raised, k ∉ s.normal)
    (hnext : next ≠ 0 → m < s.clusterSize ∧ next = offset + size) :
    BytesInv { s with
      refcount := refcount, freeClusterIndex := i, freeByteOffset := next
      compressed := ⟨offset, size, s.compressedEntry offset size, raised⟩ :: s.compressed } := by
  have hsucc := Nat.add_one_mul last s.clusterSize
  obtain ⟨e, he⟩ := @exists_eq _ (CompressedCluster.mk offset size (s.compressedEntry offset size)
    raised)
  have hlast : (offset + size - 1) / s.clusterSize = last :=
    Nat.div_eq_of_lt_le (by omega) (by omega)
  have htouch : ∀ k, k ∈ raised ↔ e.Touches s.clusterSize k := by
    intro k
    rw [hraised, he, touches_iff hpos, hlast]
  rw [← he]
  refine h.alloc ?_ hmax ?_ ?_ ?_ ?_
  · rw [he] at htouch ⊢
    exact ⟨hpos, hle, by dsimp only; omega, rfl, htouch⟩
  · intro k
    simpa only [htouch] using hcount k
  · intro x hx
    have := hfree x hx
    rw [he, CompressedCluster.Disjoint]
    dsimp only
    omega
  · exact fun k hk ht => hnormal k ((htouch k).2 ht) hk
  · intro hne
    obtain ⟨hlt, rfl⟩ := hnext hne
    have hmem : last ∈ raised := by
      have : offset / s.clusterSize ≤ last := hlast ▸ Nat.div_le_div_right (by omega)
      exact (hraised last).2 ⟨this, le_rfl⟩
    have hcounted := hcount last
    rw [if_pos hmem] at hcounted
    refine cursorOk_of hend hm hlt (by dsimp only; omega) hfits (hnormal _ hmem) fun x hx => ?_
    change x.offset + x.size ≤ last * s.clusterSize + m ∨ (last + 1) * s.clusterSize ≤ x.offset
    rcases mem_cons.1 hx with rfl | hx
    · rw [he]
      exact .inl hend.le
    · have := hfree x hx
      omega

/-- The data is put at the beginning of a new cluster. -/
theorem allocNew {r} (hr : s.allocClusters fuel 1 = some r)
    (hroom : s.Room) (hpos : 0 < size) (hle : size ≤ s.clusterSize) :
    (s.record size
      ({ r.1 with freeByteOffset := r.2 * s.clusterSize }.takeBytes size [r.2])).BytesInv := by
  obtain ⟨hc, hfits, i, hi⟩ := allocClusters_one hr
  obtain ⟨c, hc'⟩ := @exists_eq _ r.2
  have hmod : c * s.clusterSize % s.clusterSize = 0 := mul_mod_left _ _
  rw [← hc'] at hc hfits hi ⊢
  rw [hi, takeBytes]
  change (s.record size (if c * s.clusterSize % s.clusterSize ≠ 0 then _ else ({ s with
    refcount := raise s.refcount c, freeClusterIndex := i
    freeByteOffset := if c * s.clusterSize % s.clusterSize + size = s.clusterSize then 0
      else c * s.clusterSize + size }, c * s.clusterSize, [c]))).BytesInv
  rw [if_neg (not_not.2 hmod), hmod, zero_add]
  refine h.allocAt c size hpos hle rfl hpos hle (hfits hroom) (fun k => ?_)
    (raise_le h (by rw [hc]; decide)) (fun k => ?_) (fun x hx => h.free_disjoint hc hx)
    (fun k hk => ?_) fun hne => ?_
  · rw [mem_singleton, Nat.mul_div_cancel _ s.clusterSize_pos]
    omega
  · simp only [raise, mem_singleton, le_refl]
  · rw [mem_singleton.1 hk]
    exact h.not_normal hc
  · have hnotfull : ¬ size = s.clusterSize := fun heq => hne (if_pos heq)
    exact ⟨by omega, if_neg hnotfull⟩

/-- Otherwise it is put behind the cursor, where a new cluster may continue the old one. -/
theorem allocCompressed (hok : s.StepOk (.allocCompressed size))
    (hs : step fuel (.allocCompressed size) s = some s') : s'.BytesInv := by
  obtain ⟨r, hr, rfl⟩ := map_eq_some_iff.1 hs
  rw [allocBytes] at hr
  split at hr
  · cases hr
  next hsize =>
  have hpos : 0 < size := by omega
  have hle : size ≤ s.clusterSize := by omega
  split at hr
  · next hzero =>
    obtain ⟨x, hx, rfl⟩ := map_eq_some_iff.1 hr
    exact h.allocNew hx (hok.1 (.inl hzero)) hpos hle
  next hcursor =>
  have hcur := h.cursor hcursor
  have hmax := hok.2 hcursor
  have hdiv : s.cursor * s.clusterSize + s.freeByteOffset % s.clusterSize = s.freeByteOffset :=
    div_add_mod' _ _
  have hlt := mod_lt s.freeByteOffset s.clusterSize_pos
  split at hr
  · cases hr
    rw [takeBytes_inside hcur.mod hmax]
    refine h.allocAt s.cursor (s.freeByteOffset % s.clusterSize + size)
      hpos hle ?_ (by omega) (by omega) hcur.fits (fun k => ?_) (raise_le h hmax) (fun k => ?_)
      hcur.behind (fun k hk => ?_) fun hne => ?_
    · dsimp only
      omega
    · rw [mem_singleton]
      exact le_antisymm_iff.trans and_comm
    · simp only [raise, mem_singleton, le_refl]
    · rw [mem_singleton.1 hk]
      exact hcur.normal
    · have hnotfull : ¬ s.freeByteOffset % s.clusterSize + size = s.clusterSize :=
        fun heq => hne (if_pos heq)
      exact ⟨by omega, if_neg hnotfull⟩
  next hgt =>
  obtain ⟨x, hx, rfl⟩ := map_eq_some_iff.1 hr
  have hroom : s.Room := hok.1 (.inr (by omega))
  split
  swap
  · exact h.allocNew hx hroom hpos hle
  next hnext =>
  obtain ⟨hc, hfits, i, hi⟩ := allocClusters_one hx
  rw [← hnext] at hc hfits hi ⊢
  have hsucc := Nat.add_one_mul s.cursor s.clusterSize
  have hmax' : x.1.refcount s.cursor < maxRefcount := by
    rw [hi]
    change s.refcount _ + (if _ = s.cursor + 1 then 1 else 0) < _
    rwa [if_neg (by omega)]
  rw [addRefcounts_one hmax', hi]
  refine h.allocAt (s.cursor + 1)
    (s.freeByteOffset % s.clusterSize + size - s.clusterSize) hpos hle ?_ (by omega) (by omega)
    (hfits hroom) (fun k => ?_) (fun k => ?_) (fun k => ?_) (fun y hy => ?_) (fun k hk => ?_)
    fun _ => ⟨by omega, rfl⟩
  · dsimp only
    omega
  · change k ∈ [s.cursor, s.cursor + 1] ↔ s.cursor ≤ k ∧ _
    rw [mem_cons, mem_singleton]
    omega
  · have hk := h.le_max k
    change s.refcount k + (if k = s.cursor + 1 then 1 else 0) +
      (if k = s.cursor then 1 else 0) ≤ maxRefcount
    rcases eq_or_ne k s.cursor with rfl | hne
    · rw [if_neg (by omega), if_pos rfl]
      exact hmax
    · split
      · next heq =>
        rw [heq, hc]
        decide
      · exact hk
  · change s.refcount k + (if k ∈ [s.cursor, _] then 1 else 0) ≤
      s.refcount k + (if k = _ then 1 else 0) + (if k = s.cursor then 1 else 0)
    simp only [mem_cons, not_mem_nil, or_false]
    split_ifs <;> omega
  · have hbehind := hcur.behind y hy
    have hfree := h.free_disjoint hc hy
    have hsize' := (h.entries y hy).pos
    dsimp only
    omega
  · rcases mem_cons.1 hk with rfl | hk
    · exact hcur.normal
    · rw [mem_singleton.1 hk]
      exact h.not_normal hc

/-- Normal clusters are taken where nothing is counted. -/
theorem allocNormal {n : ℕ} (hs : step fuel (.allocClusters n) s = some s') : s'.BytesInv := by
  rw [step] at hs
  split at hs
  · cases hs
  obtain ⟨r, hr, rfl⟩ := map_eq_some_iff.1 hs
  obtain ⟨j, hj, rfl⟩ := map_eq_some_iff.1 hr
  obtain ⟨hle, hfree⟩ :=
    freeRun_spec (filter_eq_some_iff.1 hj).1 (zero_le _) fun k hk hk' => by omega
  have hzero : ∀ k ∈ range' (j - n) n, s.refcount k = 0 := by
    intro k hk
    rw [mem_range'_1] at hk
    exact hfree k hk.1 (by omega)
  rw [addRefcounts_ok (by
    intro k hk
    change 0 ≤ (s.refcount k : ℤ) + 1 ∧ (s.refcount k : ℤ) + 1 ≤ maxRefcount
    rw [hzero k hk]
    decide)]
  have hcount : (fun k => if k ∈ range' (j - n) n then ((s.refcount k : ℤ) + 1).toNat
      else s.refcount k) = fun k => s.refcount k + (range' (j - n) n).count k := by
    funext k
    rw [(nodup_range' ..).count]
    split <;> omega
  rw [hcount]
  refine ⟨fun k => ?_, fun k => ?_, fun e he => ?_, h.disjoint, fun k hk e he => ?_, fun hne => ?_⟩
  · change s.refcount k + _ ≤ _
    rw [(nodup_range' ..).count]
    split
    · next hk =>
      rw [hzero k hk]
      decide
    · exact h.le_max k
  · have hlive := h.count k
    rw [liveCount] at hlive
    change s.compressed.countP (fun e => decide (e.Touches s.clusterSize k)) +
      (range' (j - n) n ++ s.normal).count k ≤ s.refcount k + _
    rw [count_append]
    omega
  · have he := h.entries e he
    exact ⟨he.pos, he.le, he.fits, he.entry, he.raised⟩
  · rcases mem_append.1 hk with hk | hk
    · exact h.not_touches (hzero k hk) he
    · exact h.normal k hk e he
  · obtain ⟨hmod, hcounted, hfits, hnormal, hbehind⟩ := h.cursor hne
    have hout : s.cursor ∉ range' (j - n) n := by
      intro hk
      have := hzero _ hk
      omega
    refine ⟨hmod, ?_, hfits, ?_, hbehind⟩
    · exact hcounted.trans (le_add_right _ _)
    · exact fun hmem => (mem_append.1 hmem).elim hout hnormal

/-- Exactly the clusters that have bytes of a range lose a reference with its entry. -/
theorem freedRefcount (he : e ∈ s.compressed) :
    (∀ k, e.Touches s.clusterSize k → 1 ≤ s.refcount k) ∧
    ∃ i, s.addRefcounts (s.freedClusters e.entry) (-1) = ({ s with
      refcount := fun k => s.refcount k - if e.Touches s.clusterSize k then 1 else 0
      freeClusterIndex := i }, true) := by
  have hmem : ∀ k, k ∈ s.freedClusters e.entry ↔ e.Touches s.clusterSize k := fun k =>
    (h.entries e he).mem_freedClusters
  have hpos : ∀ k, e.Touches s.clusterSize k → 1 ≤ s.refcount k := by
    intro k hk
    by_contra hzero
    exact h.not_touches (by omega) he hk
  have hrange : ∀ k ∈ s.freedClusters e.entry,
      0 ≤ (s.refcount k : ℤ) + -1 ∧ (s.refcount k : ℤ) + -1 ≤ maxRefcount := by
    intro k hk
    have := hpos k ((hmem k).1 hk)
    have := h.le_max k
    omega
  have hcount : (fun k => if k ∈ s.freedClusters e.entry then ((s.refcount k : ℤ) + -1).toNat
      else s.refcount k) =
      fun k => s.refcount k - if e.Touches s.clusterSize k then 1 else 0 := by
    funext k
    simp only [hmem]
    split <;> omega
  rw [addRefcounts_ok hrange, hcount]
  exact ⟨hpos, _, rfl⟩

/-- A compressed cluster is freed. -/
theorem free {i} (hok : s.StepOk (.freeCompressed i))
    (hs : step fuel (.freeCompressed i) s = some s') : s'.BytesInv := by
  obtain ⟨e, hi, rfl⟩ := map_eq_some_iff.1 hs
  obtain ⟨hlt, rfl⟩ := List.getElem?_eq_some_iff.1 hi
  obtain ⟨e, heq⟩ := @exists_eq _ (s.compressed[i])
  have hmem : e ∈ s.compressed := heq ▸ getElem_mem hlt
  have hperm : (e :: s.compressed.eraseIdx i).Perm s.compressed :=
    heq ▸ getElem_cons_eraseIdx_perm hlt
  have hsub : ∀ x ∈ s.compressed.eraseIdx i, x ∈ s.compressed := fun x hx =>
    mem_of_mem_eraseIdx hx
  obtain ⟨hpos, j, hfreed⟩ := h.freedRefcount hmem
  rw [← heq, hfreed]
  refine ⟨fun k => ?_, fun k => ?_, fun x hx => ?_, ?_, fun k hk x hx => ?_, fun hne => ?_⟩
  · exact (sub_le _ _).trans (h.le_max k)
  · have hlive := h.count k
    rw [liveCount, ← hperm.countP_eq, countP_cons] at hlive
    change (s.compressed.eraseIdx i).countP (fun e => decide (e.Touches s.clusterSize k)) +
      s.normal.count k ≤ s.refcount k - _
    simp only [decide_eq_true_eq] at hlive
    omega
  · have hx := h.entries x (hsub x hx)
    exact ⟨hx.pos, hx.le, hx.fits, hx.entry, hx.raised⟩
  · exact h.disjoint.sublist (eraseIdx_sublist _ _)
  · exact h.normal k hk x (hsub x hx)
  · obtain ⟨hmod, hcounted, hfits, hnormal, hbehind⟩ := h.cursor hne
    refine ⟨hmod, ?_, hfits, hnormal, fun x hx => hbehind x (hsub x hx)⟩
    change 1 ≤ s.refcount s.cursor - _
    split
    · next htouch =>
      have := hok e (heq ▸ hi) hne htouch
      omega
    · exact hcounted

end BytesInv

end

/-! ## Runs -/

/-- What is in use has its space for itself, freeing an entry takes back the references that were
made for it, and the cursor is in a cluster that is in use. -/
structure CompressedSafe (s : ByteAlloc) : Prop where
  disjoint : s.compressed.Pairwise CompressedCluster.Disjoint
  normal : ∀ k ∈ s.normal, ∀ e ∈ s.compressed, ¬ e.Touches s.clusterSize k
  lowered : ∀ e ∈ s.compressed, ∀ k,
    (s.addRefcounts (s.freedClusters e.entry) (-1)).1.refcount k +
      (if k ∈ e.raised then 1 else 0) = s.refcount k
  cursor : s.freeByteOffset ≠ 0 → 1 ≤ s.refcount s.cursor

theorem BytesInv.safe (h : s.BytesInv) : s.CompressedSafe where
  disjoint := h.disjoint
  normal := h.normal
  lowered e he k := by
    obtain ⟨hpos, i, hfreed⟩ := h.freedRefcount he
    rw [hfreed]
    simp only [(h.entries e he).raised]
    split
    · next htouch =>
      have := hpos k htouch
      omega
    · rfl
  cursor hne := (h.cursor hne).counted

/-- In a run in which the cursor's cluster is not freed, and neither refcounts nor the offsets of
entries get too large, no space is shared. -/
theorem compressedSafe_reach {s₀ s : ByteAlloc} (h0 : s₀.BytesInv)
    (h : Reach (step fuel) StepOk s₀ s) : s.CompressedSafe := by
  refine BytesInv.safe (h.invariant h0 fun s op s' hs hok hstep => ?_)
  cases op with
  | allocCompressed size => exact hs.allocCompressed hok hstep
  | allocClusters n => exact hs.allocNormal hstep
  | freeCompressed i => exact hs.free hok hstep

/-- An empty image : the header, the refcount table, a refcount block and the L1 table. -/
def emptyImage : ByteAlloc where
  clusterBits := 16
  refcount k := if k < 4 then 1 else 0
  described k := k < 2 ^ 15
  freeClusterIndex := 0
  freeByteOffset := 0
  compressed := []
  normal := range 4
  bits_le := le_add_right 9 7
  le_bits := le_add_right 16 5

theorem bytesInv_emptyImage : emptyImage.BytesInv where
  le_max k := by
    rw [emptyImage]
    dsimp only
    split <;> decide
  count k := by
    rw [liveCount, emptyImage]
    rw [countP_nil, zero_add, nodup_range.count]
    simp only [mem_range, le_refl]
  entries e he := by cases he
  disjoint := List.Pairwise.nil
  normal k hk e he := by cases he
  cursor hne := absurd rfl hne

/-- The conditions of a step, where the cluster 100 is free. -/
def StepCheck (s : ByteAlloc) : ByteOp → Prop
  | .allocCompressed _ =>
    (s.freeClusterIndex ≤ 100 ∧ (100 + 1) * s.clusterSize ≤ 2 ^ s.csizeShift ∧
      s.refcount 100 = 0) ∧ (s.freeByteOffset ≠ 0 → s.refcount s.cursor < maxRefcount)
  | op => s.StepOk op

instance (s : ByteAlloc) : ∀ op, Decidable (s.StepCheck op)
  | .allocCompressed _ => inferInstanceAs (Decidable (_ ∧ _))
  | .allocClusters _ => inferInstanceAs (Decidable True)
  | .freeCompressed i => inferInstanceAs (Decidable (∀ e ∈ s.compressed[i]?, _ → _ → _))

theorem StepCheck.ok (s : ByteAlloc) : ∀ op, s.StepCheck op → s.StepOk op
  | .allocCompressed _, h => ⟨fun _ => ⟨100, h.1⟩, h.2⟩
  | .allocClusters _, h => h
  | .freeCompressed _, h => h

/-- The second compressed cluster is continued in a new cluster, the fourth one needs another. The
first two are freed, and a normal cluster is put where they were. -/
def mixedOps : List ByteOp :=
  [.allocCompressed 40000, .allocCompressed 40000, .allocClusters 2, .allocCompressed 30000,
    .freeCompressed 2, .allocCompressed 30000, .allocCompressed 100, .freeCompressed 3,
    .allocClusters 1]

theorem reach_mixedOps : ∃ s, Reach (step 8) StepOk emptyImage s ∧
    s.compressed.map (fun e => (e.offset, e.size)) =
      [(8 * 65536 + 30000, 100), (8 * 65536, 30000), (5 * 65536 + 14464, 30000)] ∧
    s.normal = [4, 6, 7, 0, 1, 2, 3] ∧ s.refcount 8 = 2 := by
  have hrun : (mixedOps.foldlM (Reach.checked (step 8) StepCheck) emptyImage).map (fun s =>
      (s.compressed.map (fun e => (e.offset, e.size)), s.normal, s.refcount 8)) =
      some ([(8 * 65536 + 30000, 100), (8 * 65536, 30000), (5 * 65536 + 14464, 30000)],
        [4, 6, 7, 0, 1, 2, 3], 2) := by decide +kernel
  obtain ⟨s, hs, heq⟩ := map_eq_some_iff.1 hrun
  obtain ⟨hcompressed, heq⟩ := Prod.mk.inj heq
  obtain ⟨hnormal, hcount⟩ := Prod.mk.inj heq
  exact ⟨s, Reach.foldlM_checked StepCheck.ok mixedOps .refl hs, hcompressed, hnormal, hcount⟩

/-- The compressed clusters of the mixed run are safe. -/
theorem compressedSafe_reach_mixed : ∃ s, Reach (step 8) StepOk emptyImage s ∧
    s.compressed.map (fun e => (e.offset, e.size)) =
      [(8 * 65536 + 30000, 100), (8 * 65536, 30000), (5 * 65536 + 14464, 30000)] ∧
    s.normal = [4, 6, 7, 0, 1, 2, 3] ∧ s.CompressedSafe := by
  obtain ⟨s, hs, hcompressed, hnormal, -⟩ := reach_mixedOps
  exact ⟨s, hs, hcompressed, hnormal, compressedSafe_reach bytesInv_emptyImage hs⟩

/-- The only compressed cluster is freed and the cursor stays in its cluster. A normal cluster is
put there, and the next compressed cluster into that one. -/
theorem compressedSafe_fail :
    ∃ s, [.allocCompressed 100, .freeCompressed 0, .allocClusters 1, .allocCompressed 100].foldlM
      (fun s op => step 8 op s) emptyImage = some s ∧ ¬ s.CompressedSafe := by
  obtain ⟨s, hs, hlast⟩ := Option.map_eq_some_iff.1 (show
    ([.allocCompressed 100, .freeCompressed 0, .allocClusters 1, .allocCompressed 100].foldlM
      (fun s op => step 8 op s) emptyImage).map (fun s =>
        decide (∃ k ∈ s.normal, ∃ e ∈ s.compressed, e.Touches s.clusterSize k)) = some true by
      decide +kernel)
  obtain ⟨k, hk, e, he, htouch⟩ := of_decide_eq_true hlast
  exact ⟨s, hs, fun hsafe => hsafe.normal k hk e he htouch⟩

/-- In such a run a refcount is never lower than the number of clusters, normal and compressed,
that are in use there, so that nothing in use is in a free cluster. -/
theorem liveCount_le_reach {s₀ s : ByteAlloc} (h0 : s₀.BytesInv)
    (h : Reach (step fuel) StepOk s₀ s) (k : ℕ) :
    s.liveCount k ≤ s.refcount k ∧ (s.refcount k = 0 → k ∉ s.normal ∧
      ∀ e ∈ s.compressed, ¬ e.Touches s.clusterSize k) := by
  have hinv : s.BytesInv := h.invariant h0 fun s op s' hs hok hstep => by
    cases op with
    | allocCompressed size => exact hs.allocCompressed hok hstep
    | allocClusters n => exact hs.allocNormal hstep
    | freeCompressed i => exact hs.free hok hstep
  refine ⟨hinv.count k, fun hk => ⟨fun hmem => ?_, fun e he => hinv.not_touches hk he⟩⟩
  have hle := hinv.count k
  rw [liveCount, hk] at hle
  exact absurd (count_pos_iff.2 hmem) (by omega)

/-- Two compressed clusters in the host cluster 8, which has two references. -/
theorem liveCount_le_reach_mixed : ∃ s, Reach (step 8) StepOk emptyImage s ∧
    s.compressed.map (fun e => (e.offset, e.size)) =
      [(8 * 65536 + 30000, 100), (8 * 65536, 30000), (5 * 65536 + 14464, 30000)] ∧
    s.refcount 8 = 2 ∧ s.liveCount 8 ≤ s.refcount 8 := by
  obtain ⟨s, hs, hcompressed, -, hcount⟩ := reach_mixedOps
  exact ⟨s, hs, hcompressed, hcount, (liveCount_le_reach bytesInv_emptyImage hs 8).1⟩

/-! ## `update_refcount` -/

/-- The refcounts are those of the image. -/
structure Counts (s : ByteAlloc) (r : RefcountState) : Prop where
  clusterBits : s.clusterBits = r.clusterBits
  refcount : ∀ k, s.refcount k = r.getRefcount k
  described : ∀ k, s.described k = true ↔ r.Described k
  freeClusterIndex : s.freeClusterIndex = r.freeClusterIndex

/-- Where there are refcount blocks, `update_refcount` does what `addRefcounts` does. -/
theorem updateRefcount_addRefcounts {r} {calls : ℕ} {length addend : ℤ}
    (hl : r.Layout) (hpos : 0 < length) (h : s.Counts r)
    (hd : ∀ k ∈ r.clustersOf offset length, s.described k = true ∨ s.refcount k ≠ 0) :
    ∃ r' res, updateRefcount (calls + 2) r offset length addend = some (r', res) ∧
      (s.addRefcounts (r.clustersOf offset length) addend).1.Counts r' ∧
      (res = .ok () ↔ (s.addRefcounts (r.clustersOf offset length) addend).2 = true) := by
  have hd' : ∀ k, r.Intersects offset length k → r.Described k := by
    intro k hk
    rcases hd k ((mem_clustersOf hpos).2 hk) with hk | hk
    · exact (h.described k).1 hk
    · exact described_of_getRefcount (h.refcount k ▸ hk)
  rcases @updateRefcount_described r addend offset length calls hl hpos hd' with
    ⟨r', hr', hu⟩ | ⟨r', c, hr', hu⟩
  · refine ⟨r', _, hr', ?_⟩
    have hrange : ∀ k ∈ r.clustersOf offset length,
        0 ≤ s.refcount k + addend ∧ s.refcount k + addend ≤ maxRefcount := by
      intro k hk
      have hk' := hu.changed k ((mem_clustersOf hpos).1 hk)
      have := r'.getRefcount_lt k
      rw [h.refcount, maxRefcount]
      omega
    rw [addRefcounts_ok hrange]
    refine ⟨⟨h.clusterBits.trans hu.same.clusterBits.symm, fun k => ?_,
      fun k => (h.described k).trans hu.same.described.symm, ?_⟩, iff_of_true rfl rfl⟩
    swap
    · simp only [hu.index hpos, h.refcount, h.freeClusterIndex]
    dsimp only
    split
    · next hk =>
      have hk' := hu.changed k ((mem_clustersOf hpos).1 hk)
      rw [h.refcount]
      omega
    · next hk =>
      rw [h.refcount, hu.other k fun hint => hk ((mem_clustersOf hpos).2 hint)]
  · refine ⟨r', _, hr', ?_⟩
    have hnot : ¬ (r.clustersOf offset length).all (fun k => decide
        (0 ≤ (s.refcount k : ℤ) + addend ∧ (s.refcount k : ℤ) + addend ≤ maxRefcount)) = true := by
      intro hall
      have hc := all_eq_true.1 hall c ((mem_clustersOf hpos).2 hu.intersects)
      rw [decide_eq_true_eq, h.refcount] at hc
      exact hu.not_inRange hc
    rw [addRefcounts]
    rw [if_neg hnot]
    refine ⟨⟨h.clusterBits.trans hu.same.clusterBits.symm, fun k => ?_,
      fun k => (h.described k).trans hu.same.described.symm, ?_⟩,
      iff_of_false (by rintro ⟨⟩) Bool.false_ne_true⟩
    · rw [hu.count]
      exact h.refcount k
    · simp only [hu.index, InRange, maxRefcount, h.refcount, h.freeClusterIndex,
        Bool.decide_or]
      rfl

end ByteAlloc

end QemuArm
