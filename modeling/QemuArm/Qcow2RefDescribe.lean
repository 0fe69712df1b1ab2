import QemuArm.Qcow2RefGrow
import QemuArm.Qcow2RefUpdate

/-!
# What a grown refcount table describes

When the refcount table grows, its new blocks are put behind the blocks in use so that they describe
themselves and the new table. They are written past the cache. A refcount block that was just
allocated is still in it, and when the cluster that asked for it is the first of a block, the new
blocks may come to lie over that one. The driver then goes on with the counts of the old contents :
`refcountTable_selfDescribing_iff` says when.
-/

namespace QemuArm

open List Option Nat

namespace RefcountState

variable {s s₀ : RefcountState}

/-- The cluster is one of those of the table. -/
def InTable (s : RefcountState) (c : ℕ) : Prop :=
  s.refcountTableOffset ≤ c ∧
    c < s.refcountTableOffset + s.sizeToClusters (s.refcountTable.length * 8)

/-- What the driver itself uses is counted : the header, the table and the blocks. -/
structure Consistent (s : RefcountState) : Prop extends s.Layout where
  header : s.getRefcount 0 ≠ 0
  table : ∀ c, s.InTable c → s.getRefcount c ≠ 0
  block : ∀ i, s.blockOf i ≠ 0 → s.getRefcount (s.blockOf i) ≠ 0

theorem div_le_blocksUsed (s : RefcountState) (c : ℕ) :
    c / s.blockClusters ≤ (c + s.blockClusters - 1) / s.blockClusters :=
  Nat.div_le_div_right (by have := s.blockClusters_pos; omega)

theorem Consistent.length_pos (h : s.Consistent) : 0 < s.refcountTable.length :=
  zero_lt_of_lt (described_of_getRefcount h.header).lt

/-! ## The block that is allocated first -/

theorem getRefcount_freeCluster (s : RefcountState) : ∀ n i : ℕ,
    s.refcountTable.length * s.blockClusters ≤ i + n → s.getRefcount (s.freeCluster n i) = 0
  | 0, i, h => by
    refine getRefcount_eq_zero fun hd => ?_
    have hlt := (div_lt_iff_lt_mul s.blockClusters_pos).1 hd.lt
    rw [freeCluster] at hlt
    omega
  | n + 1, i, h => by
    rw [freeCluster]
    split
    · assumption
    · exact getRefcount_freeCluster s n (i + 1) (by omega)

theorem clustersOf_one (s : RefcountState) (c : ℕ) :
    s.clustersOf (c * s.clusterSize) s.clusterSize = [c] := by
  have hpos := s.clusterSize_pos
  have hlast : (c * s.clusterSize + s.clusterSize - 1) / s.clusterSize = c := by
    rw [Nat.div_eq_iff hpos]
    omega
  rw [clustersOf, Int.toNat_natCast, hlast, Nat.mul_div_cancel _ hpos, Nat.add_sub_cancel_left]
  rfl

variable {c : ℕ} {s' : RefcountState}

/-- A call for one cluster succeeds only if there is a block, which the table has. -/
theorem updateRefcount_one {calls addend}
    (h : updateRefcount calls s (c * s.clusterSize) s.clusterSize addend = some (s', .ok ())) :
    SameTable s s' ∧ s.blockOf (c / s.blockClusters % 2 ^ 32) ≠ 0 := by
  have hpos := s.clusterSize_pos
  cases calls with
  | zero => cases h
  | succ calls =>
    rw [updateRefcount, if_neg (by omega), if_neg (by omega), clustersOf_one] at h
    obtain ⟨⟨s₁, r⟩, hloop, h⟩ := bind_eq_some_iff.1 h
    rcases r with _ | ⟨k, e⟩
    · cases h
      obtain ⟨⟨s₂, r⟩, halloc, hloop⟩ := bind_eq_some_iff.1 hloop
      cases r with
      | error e => cases hloop
      | ok b =>
        obtain ⟨rfl, hb, hne⟩ := allocRefcountBlock_ok halloc
        refine ⟨?_, hb ▸ hne⟩
        dsimp only at hloop
        split at hloop
        · cases hloop
        · cases hloop
          split <;> exact ⟨rfl, rfl, rfl, rfl⟩
    · obtain ⟨⟨s₂, r⟩, -, h⟩ := map_eq_some_iff.1 h
      cases h

/-- What is known of the new block : it had no refcount, and it describes itself or another block
of the table does. -/
structure NewBlock (s₀ s : RefcountState) (clusterIndex newBlock : ℕ) : Prop where
  clusterBits : s.clusterBits = s₀.clusterBits
  refcountTable : s.refcountTable = s₀.refcountTable
  refcountTableOffset : s.refcountTableOffset = s₀.refcountTableOffset
  unused : s₀.getRefcount newBlock = 0
  place : newBlock / s₀.blockClusters = clusterIndex / s₀.blockClusters ∧
      s.blocks newBlock = Function.update (fun _ => 0) (newBlock % s₀.blockClusters) 1 ∨
    newBlock / s₀.blockClusters ≠ clusterIndex / s₀.blockClusters ∧
      s₀.blockOf (newBlock / s₀.blockClusters % 2 ^ 32) ≠ 0

variable {clusterIndex newBlock : ℕ}

theorem newRefcountBlock_ok {calls}
    (h : s₀.newRefcountBlock (updateRefcount calls) clusterIndex = some (s, .ok newBlock)) :
    NewBlock s₀ s clusterIndex newBlock := by
  have hfree := s₀.getRefcount_freeCluster (s₀.refcountTable.length * s₀.blockClusters)
    s₀.freeClusterIndex (by omega)
  unfold newRefcountBlock allocClusterNoref at h
  dsimp only at h
  split at h
  · next hsame =>
    obtain ⟨rfl, hnb⟩ := Prod.mk.inj (Option.some.inj h)
    obtain rfl := Except.ok.inj hnb
    exact ⟨rfl, rfl, rfl, hfree, .inl ⟨hsame, Function.update_self _ _ _⟩⟩
  · next hother =>
    obtain ⟨⟨s₁, r⟩, hupdate, h⟩ := map_eq_some_iff.1 h
    cases r with
    | error e => cases h
    | ok u =>
      obtain ⟨rfl, hnb⟩ := Prod.mk.inj h
      obtain rfl := Except.ok.inj hnb
      obtain ⟨hsame, hblock⟩ := updateRefcount_one hupdate
      exact ⟨hsame.clusterBits, hsame.refcountTable, hsame.refcountTableOffset, hfree,
        .inr ⟨hother, hblock⟩⟩

/-! ## The switch -/

section Switch

variable {blocksUsed clusterIndex newBlock : ℕ} {g : Growth}

section

variable (hg : g.Ok s blocksUsed clusterIndex newBlock)
include hg

omit hg in
theorem switchTable_described : (s.switchTable newBlock g).Described c ↔
    (s.switchTable newBlock g).blockOf (c / s.blockClusters) ≠ 0 := Iff.rfl

omit hg in
theorem switchTable_getRefcount (hd : (s.switchTable newBlock g).Described c) :
    (s.switchTable newBlock g).getRefcount c = ((s.switchTable newBlock g).blocks
      ((s.switchTable newBlock g).blockOf (c / s.blockClusters)) (c % s.blockClusters)).toNat :=
  hd.getRefcount

theorem switchTable_blockOf (k : ℕ) :
    (s.switchTable newBlock g).blockOf k =
      if blocksUsed ≤ k ∧ k < blocksUsed + g.blocksClusters then g.metaOffset + (k - blocksUsed)
      else if k = clusterIndex / s.blockClusters then newBlock
      else s.blockOf k := by
  have hget : (s.switchTable newBlock g).blockOf k = g.newTable[k]?.getD 0 :=
    getD_eq_getElem?_getD
  rw [hget, hg.entry k]
  split
  · rfl
  split
  · rfl
  rw [blockOf, getD_eq_getElem?_getD]
  split
  · rfl
  · next hk =>
    rw [getElem?_eq_none (not_lt.1 hk)]
    split <;> rfl

/-- The block that describes a cluster of the new metadata. -/
theorem switchTable_area (hlow : g.metaOffset ≤ c) (hhigh : c < g.tableOffset + g.tableClusters) :
    ∃ i < g.blocksClusters, c = g.metaOffset + i * s.blockClusters + c % s.blockClusters ∧
      (s.switchTable newBlock g).blockOf (c / s.blockClusters) = g.metaOffset + i := by
  have hpos := s.blockClusters_pos
  have hmeta := hg.metaOffset
  have hfits := hg.fits
  rw [Growth.tableOffset] at hhigh
  have hdiv : c / s.blockClusters = blocksUsed + (c - g.metaOffset) / s.blockClusters := by
    conv_lhs => rw [← Nat.add_sub_cancel' hlow, hmeta]
    rw [add_comm, add_mul_div_right _ _ hpos, add_comm, hmeta]
  have hi : (c - g.metaOffset) / s.blockClusters < g.blocksClusters := by
    rw [div_lt_iff_lt_mul hpos]
    omega
  refine ⟨(c - g.metaOffset) / s.blockClusters, hi, ?_, ?_⟩
  · have hmod := div_add_mod c s.blockClusters
    rw [hdiv, mul_add, mul_comm, ← hmeta, mul_comm] at hmod
    exact hmod.symm
  · rw [switchTable_blockOf hg, hdiv,
      if_pos ⟨Nat.le_add_right _ _, Nat.add_lt_add_left hi _⟩, Nat.add_sub_cancel_left]

theorem switchTable_counted (hused : 0 < blocksUsed) (hlow : g.metaOffset ≤ c)
    (hhigh : c < g.tableOffset + g.tableClusters)
    (hnew : ∀ i, i * s.blockClusters < g.tableClusters + g.blocksClusters →
      newBlock ≠ g.metaOffset + i) : (s.switchTable newBlock g).getRefcount c = 1 := by
  obtain ⟨i, hi, hc, hblock⟩ := switchTable_area hg hlow hhigh
  rw [Growth.tableOffset] at hhigh
  have hpos : 0 < g.metaOffset := hg.metaOffset ▸ mul_pos hused s.blockClusters_pos
  have hcount := hg.count (i * s.blockClusters + c % s.blockClusters) (by have := hg.fits; omega)
  rw [if_pos (by omega)] at hcount
  have hne : g.metaOffset + i ≠ newBlock := (hnew i (by omega)).symm
  have hd : (s.switchTable newBlock g).Described c := by
    rw [switchTable_described]
    omega
  rw [switchTable_getRefcount hd, hblock, switchTable]
  dsimp only
  rw [if_pos ⟨Nat.le_add_right _ _, by omega, hne⟩, Nat.add_sub_cancel_left,
    getD_eq_getElem?_getD, hcount]
  rfl

/-- The block that was allocated first hides what was written to its cluster. -/
theorem switchTable_hidden {i} (hi : i * s.blockClusters < g.tableClusters + g.blocksClusters)
    (hnew : newBlock = g.metaOffset + i)
    (hblock : s.blocks newBlock = Function.update (fun _ => 0) (newBlock % s.blockClusters) 1) :
    ∃ c, g.metaOffset ≤ c ∧ c < g.tableOffset + g.tableClusters ∧
      (s.switchTable newBlock g).getRefcount c = 0 := by
  have hpos := s.blockClusters_pos
  have hb : s.blockClusters = 4 * s.tableEntries := s.blockClusters_eq
  have hi_lt : i < g.blocksClusters := by
    have := hi.trans_le hg.fits
    exact Nat.lt_of_mul_lt_mul_right this
  have hi_rbc : i < s.blockClusters := hi_lt.trans_le hg.blocksClusters_le
  have hmod : newBlock % s.blockClusters = i := by
    rw [hnew, hg.metaOffset, add_comm, add_mul_mod_self_right, mod_eq_of_lt hi_rbc]
  -- an entry of the block that is not its own
  obtain ⟨j, hj, hji, hlt⟩ : ∃ j, j < s.blockClusters ∧ j ≠ i ∧
      i * s.blockClusters + j < g.tableClusters + g.blocksClusters := by
    rcases Nat.eq_zero_or_pos i with rfl | hi0
    · refine ⟨1, by omega, by omega, ?_⟩
      have hn := hg.size.room
      rw [HasRoom] at hn
      have : 0 < g.tableClusters := by
        by_contra hzero
        rw [not_lt, le_zero] at hzero
        rw [hzero, zero_mul] at hn
        exact absurd hn (not_lt_zero _)
      omega
    · exact ⟨0, by omega, by omega, by omega⟩
  have hc_mod : (g.metaOffset + i * s.blockClusters + j) % s.blockClusters = j := by
    rw [hg.metaOffset, ← add_mul, add_comm, add_mul_mod_self_right, mod_eq_of_lt hj]
  have hc_div : (g.metaOffset + i * s.blockClusters + j) / s.blockClusters = blocksUsed + i := by
    rw [hg.metaOffset, ← add_mul, add_comm, add_mul_div_right _ _ hpos, div_eq_of_lt hj, zero_add]
  refine ⟨g.metaOffset + i * s.blockClusters + j, by omega, by rw [Growth.tableOffset]; omega, ?_⟩
  by_cases hd : (s.switchTable newBlock g).Described (g.metaOffset + i * s.blockClusters + j)
  · rw [switchTable_getRefcount hd, hc_div, switchTable_blockOf hg, if_pos (by omega),
      Nat.add_sub_cancel_left, ← hnew, switchTable]
    dsimp only
    rw [if_neg fun h => h.2.2 rfl, hblock, Function.update_of_ne (by omega)]
    rfl
  · exact getRefcount_eq_zero hd

/-- Where the blocks of the table and the new block are not in the way of the new blocks, no two
entries are the same block. -/
theorem switchTable_inj (hl : s.Layout) (hold : ∀ i, s.blockOf i ≠ 0 → s.blockOf i < g.metaOffset)
    (hnew : ∀ i, s.blockOf i ≠ 0 → s.blockOf i ≠ newBlock)
    (hti : clusterIndex / s.blockClusters ≤ blocksUsed)
    (hfar : clusterIndex / s.blockClusters < blocksUsed →
      newBlock < g.metaOffset ∨ g.metaOffset + g.blocksClusters ≤ newBlock) (i j : ℕ)
    (heq : (s.switchTable newBlock g).blockOf i = (s.switchTable newBlock g).blockOf j)
    (hne : (s.switchTable newBlock g).blockOf i ≠ 0) : i = j := by
  rw [switchTable_blockOf hg i] at heq hne
  rw [switchTable_blockOf hg j] at heq
  have hi := hold i
  have hj := hold j
  have hi' := hnew i
  have hj' := hnew j
  have hij := hl.inj i j
  split_ifs at heq hne <;> omega

end

end Switch

/-! ## The growth -/

/-- What the growth for `clusterIndex` should come to; `s₀` is the state before, `s'` after it. -/
structure SelfDescribing (s₀ s' : RefcountState) (clusterIndex newBlock : ℕ) (g : Growth) :
    Prop where
  old : ∀ i < s₀.refcountTable.length, s'.blockOf i = s₀.blockOf i
  counted : ∀ c, g.metaOffset ≤ c → c < g.tableOffset + g.tableClusters → s'.getRefcount c = 1
  distinct : ∀ i j, s'.blockOf i = s'.blockOf j → s'.blockOf i ≠ 0 → i = j
  unused : ∀ c, g.metaOffset ≤ c ∧ c < g.tableOffset + g.tableClusters ∨ c = newBlock →
    s₀.getRefcount c = 0
  /-- unless the new blocks describe the cluster anyway -/
  registered : clusterIndex < g.metaOffset → s'.blockOf (clusterIndex / s₀.blockClusters) = newBlock

/-- The cluster is the first of a block, and the new block is that of the clusters behind it which
will hold the counts of the new metadata; for the cluster itself this is always so. -/
def Overlays (s : RefcountState) (clusterIndex newBlock : ℕ) : Prop :=
  clusterIndex % s.blockClusters = 0 ∧ clusterIndex ≤ newBlock ∧
    ∀ k, s.HasRoom (clusterIndex / s.blockClusters) (s.tableSizes k) →
      (newBlock - clusterIndex) * s.blockClusters < s.metaClusters (s.tableSizes k)

section

variable (h : NewBlock s₀ s clusterIndex newBlock)
include h

theorem NewBlock.blockClusters : s.blockClusters = s₀.blockClusters :=
  blockClusters_congr h.clusterBits

theorem NewBlock.blockOf (i : ℕ) : s.blockOf i = s₀.blockOf i := blockOf_congr h.refcountTable i

theorem NewBlock.tableSizes : s.tableSizes = s₀.tableSizes := by
  funext k
  rw [RefcountState.tableSizes, h.refcountTable, tableEntries, h.clusterBits]
  rfl

theorem NewBlock.metaClusters : s.metaClusters = s₀.metaClusters := by
  funext n
  rw [RefcountState.metaClusters, h.blockClusters]
  rfl

theorem NewBlock.hasRoom : s.HasRoom = s₀.HasRoom := by
  funext blocksUsed n
  rw [HasRoom, h.metaClusters, h.blockClusters, tableEntries, h.clusterBits]
  rfl

end

theorem metaClusters_mono {n n'} (h : n ≤ n') : s.metaClusters n ≤ s.metaClusters n' :=
  Nat.add_le_add h (Nat.add_le_add_left (Nat.div_le_div_right (by omega)) 1)

/-- A new block that another one describes is not among the clusters that the table is to grow
over. -/
theorem NewBlock.far (h : NewBlock s₀ s clusterIndex newBlock)
    (hother : newBlock / s₀.blockClusters ≠ clusterIndex / s₀.blockClusters) :
    newBlock < s₀.refcountTable.length * s₀.blockClusters ∨
      2 ^ 32 * s₀.blockClusters ≤ newBlock := by
  have hpos := s₀.blockClusters_pos
  rcases h.place with ⟨hsame, -⟩ | ⟨-, hblock⟩
  · exact absurd hsame hother
  · rcases lt_or_ge (newBlock / s₀.blockClusters) (2 ^ 32) with hlt | hge
    · rw [mod_eq_of_lt hlt] at hblock
      exact .inl ((div_lt_iff_lt_mul hpos).1 (lt_length_of_blockOf hblock))
    · exact .inr ((le_div_iff_mul_le hpos).1 hge)

/-- The clusters of the table that is replaced. -/
theorem intersects_table {k} (hk : s.Intersects (s.refcountTableOffset * s.clusterSize)
    (s.refcountTable.length * 8 : ℕ) k) : s.InTable k := by
  obtain ⟨-, hlow, hhigh⟩ := hk
  have hpos := s.clusterSize_pos
  have hle : s.refcountTableOffset ≤ k := Nat.lt_succ_iff.1 (Nat.lt_of_mul_lt_mul_right hlow)
  obtain ⟨j, rfl⟩ := Nat.exists_eq_add_of_le hle
  refine ⟨hle, Nat.add_lt_add_left ?_ _⟩
  have hlt : j * s.clusterSize < s.refcountTable.length * 8 := by
    rw [← cast_mul, add_mul] at hhigh
    omega
  refine lt_of_lt_of_le (lt_succ_self j) ((le_div_iff_mul_le hpos).2 ?_)
  rw [succ_mul]
  omega

/-- The blocks in use before a cluster. -/
theorem blocksUsed_cases (c : ℕ) {b} (hb : 0 < b) :
    c % b = 0 ∧ (c + b - 1) / b = c / b ∨ c % b ≠ 0 ∧ (c + b - 1) / b = c / b + 1 := by
  have hc := div_add_mod' c b
  have hlt := mod_lt c hb
  rcases Nat.eq_zero_or_pos (c % b) with hzero | hpos
  · exact .inl ⟨hzero, (Nat.div_eq_iff hb).2 (by omega)⟩
  · refine .inr ⟨by omega, ?_⟩
    rw [Nat.div_eq_iff hb, Nat.succ_mul]
    omega

/-- The old table was freed after the switch, unless it had not been counted. -/
def TableFreed (s : RefcountState) (newBlock : ℕ) (g : Growth) (s' : RefcountState) : Prop :=
  (s.switchTable newBlock g).Updated (s.refcountTableOffset * s.clusterSize)
      (s.refcountTable.length * 8 : ℕ) (-1) s' ∨
    ∃ c, (s.switchTable newBlock g).Undone (s.refcountTableOffset * s.clusterSize)
      (s.refcountTable.length * 8 : ℕ) (-1) c s'

theorem TableFreed.sameTable {g} (h : TableFreed s newBlock g s') :
    SameTable (s.switchTable newBlock g) s' := by
  rcases h with h | ⟨c, h⟩
  · exact h.same
  · exact h.same

/-- The table has grown from `s`, the state after the allocation of the new block. -/
structure Grown (s₀ s : RefcountState) (clusterIndex newBlock : ℕ) (g : Growth) : Prop where
  before : s₀.Consistent
  out : s₀.refcountTable.length ≤ clusterIndex / s₀.blockClusters
  new : NewBlock s₀ s clusterIndex newBlock
  used : (clusterIndex + s₀.blockClusters - 1) / s₀.blockClusters ≤ maxReftableSize
  growth : g.Ok s ((clusterIndex + s₀.blockClusters - 1) / s₀.blockClusters) clusterIndex newBlock

namespace Grown

variable {clusterIndex newBlock : ℕ} {g : Growth}

section

variable (h : Grown s₀ s clusterIndex newBlock g)
include h

theorem table_le : s₀.refcountTable.length * s₀.blockClusters ≤ g.metaOffset := by
  rw [h.growth.metaOffset, h.new.blockClusters]
  exact mul_le_mul_right _ (h.out.trans (s₀.div_le_blocksUsed _))

theorem unused (hc : g.metaOffset ≤ c) : s₀.getRefcount c = 0 := by
  refine getRefcount_eq_zero fun hd => ?_
  have hlt := (div_lt_iff_lt_mul s₀.blockClusters_pos).1 hd.lt
  have hle := h.table_le
  omega

/-- The new metadata is behind the blocks of the old table. -/
theorem blockOf_lt {i} (hi : s₀.blockOf i ≠ 0) : s₀.blockOf i < g.metaOffset := by
  by_contra hge
  exact h.before.block i hi (h.unused (not_lt.1 hge))

/-- Where the new block is, unless the first new block has its place. -/
theorem newBlock_far (hno : clusterIndex % s₀.blockClusters ≠ 0 ∨
      newBlock / s₀.blockClusters ≠ clusterIndex / s₀.blockClusters) :
    newBlock < g.metaOffset ∨ g.metaOffset + g.blocksClusters ≤ newBlock := by
  have hpos := s₀.blockClusters_pos
  have hmeta := h.growth.metaOffset
  have hle := h.growth.blocksClusters_le
  have hused := h.used
  rw [h.new.blockClusters] at hmeta hle
  by_cases hsame : newBlock / s₀.blockClusters = clusterIndex / s₀.blockClusters
  · have hmod : clusterIndex % s₀.blockClusters ≠ 0 := hno.resolve_right (not_not.2 hsame)
    rcases blocksUsed_cases clusterIndex hpos with ⟨hzero, -⟩ | ⟨-, hbu⟩
    · exact absurd hzero hmod
    · refine .inl ?_
      rw [hmeta, hbu, ← div_lt_iff_lt_mul hpos, hsame]
      exact lt_succ_self _
  · rcases h.new.far hsame with hlt | hge
    · exact .inl (hlt.trans_le h.table_le)
    · refine .inr (le_trans ?_ hge)
      rw [hmeta]
      calc _ ≤ (2 ^ 20 + 1) * s₀.blockClusters := by
            rw [succ_mul]
            exact Nat.add_le_add (Nat.mul_le_mul_right _ hused) hle
        _ ≤ 2 ^ 32 * s₀.blockClusters := mul_le_mul_right _ (by decide)

theorem blockOf_old {i} (hi : i < s₀.refcountTable.length) :
    (s.switchTable newBlock g).blockOf i = s₀.blockOf i := by
  have hout := h.out
  have hle := s₀.div_le_blocksUsed clusterIndex
  rw [switchTable_blockOf h.growth, if_neg (by omega), h.new.blockClusters, if_neg (by omega),
    h.new.blockOf]

theorem layout : (s.switchTable newBlock g).Layout := by
  have hb := h.new.blockClusters
  refine ⟨h.growth.length_le.trans_lt (by decide), switchTable_inj h.growth ?_ ?_ ?_ ?_ ?_⟩
  · exact h.before.congr h.new.refcountTable
  · intro i hi
    rw [h.new.blockOf] at hi ⊢
    exact h.blockOf_lt hi
  · intro i hi heq
    rw [h.new.blockOf] at hi heq
    exact h.before.block i hi (heq ▸ h.new.unused)
  · rw [hb]
    exact s₀.div_le_blocksUsed _
  · intro hlt
    rw [hb] at hlt
    refine h.newBlock_far (.inl fun hzero => ?_)
    rcases blocksUsed_cases clusterIndex s₀.blockClusters_pos with ⟨-, hbu⟩ | ⟨hne, -⟩
    · omega
    · exact hne hzero

theorem intersects_table {k} (hk : (s.switchTable newBlock g).Intersects (s.refcountTableOffset
      * s.clusterSize) (s.refcountTable.length * 8 : ℕ) k) : s₀.InTable k := by
  have hcs : (s.switchTable newBlock g).clusterSize = s₀.clusterSize := by
    rw [clusterSize, clusterSize, ← h.new.clusterBits]
    rfl
  refine RefcountState.intersects_table ?_
  rwa [Intersects, hcs, h.new.refcountTable, h.new.refcountTableOffset, clusterSize,
    h.new.clusterBits] at hk

/-- The old table is freed. -/
theorem free_table (calls : ℕ) :
    ∃ s' r, updateRefcount (calls + 2) (s.switchTable newBlock g)
        (s.refcountTableOffset * s.clusterSize) (s.refcountTable.length * 8 : ℕ) (-1) =
          some (s', r) ∧ TableFreed s newBlock g s' := by
  have hpos := h.before.length_pos
  have hd : ∀ k, (s.switchTable newBlock g).Intersects (s.refcountTableOffset * s.clusterSize)
      (s.refcountTable.length * 8 : ℕ) k → (s.switchTable newBlock g).Described k := by
    intro k hk
    have hk' := described_of_getRefcount (h.before.table k (h.intersects_table hk))
    rw [switchTable_described, h.new.blockClusters, h.blockOf_old hk'.lt]
    exact hk'
  rw [← h.new.refcountTable] at hpos
  rcases updateRefcount_described h.layout (by omega) hd with ⟨s', hs', hok⟩ | ⟨s', c, hs', hok⟩
  · exact ⟨s', _, hs', .inl hok⟩
  · exact ⟨s', _, hs', .inr ⟨c, hok⟩⟩

/-- For the first cluster of a block the new metadata is put in its place. -/
theorem metaOffset_eq (hmod : clusterIndex % s₀.blockClusters = 0) :
    (clusterIndex + s₀.blockClusters - 1) / s₀.blockClusters = clusterIndex / s₀.blockClusters ∧
      g.metaOffset = clusterIndex := by
  obtain ⟨-, hbu⟩ | ⟨hne, -⟩ := blocksUsed_cases clusterIndex s₀.blockClusters_pos
  · refine ⟨hbu, ?_⟩
    rw [h.growth.metaOffset, hbu, h.new.blockClusters]
    exact Nat.div_mul_cancel (Nat.dvd_of_mod_eq_zero hmod)
  · exact absurd hmod hne

/-- The driver sees the counts of the new metadata unless they are hidden. -/
theorem counted_iff :
    (∀ c, g.metaOffset ≤ c → c < g.tableOffset + g.tableClusters →
      (s.switchTable newBlock g).getRefcount c = 1) ↔ ¬ s₀.Overlays clusterIndex newBlock := by
  have hb := h.new.blockClusters
  have hpos := s₀.blockClusters_pos
  have hg := h.growth
  have hlen := h.before.length_pos
  have hout := h.out
  have hfits := hg.fits
  have hsize := hg.blocksClusters
  rw [hb] at hfits
  rw [h.new.metaClusters] at hsize
  constructor
  · rintro hall ⟨hmod, hle, hover⟩
    obtain ⟨hbu, hstart⟩ := h.metaOffset_eq hmod
    -- the table has the first size with room
    obtain ⟨k, hk⟩ := hg.size.size
    have hroom := hg.size.room
    rw [h.new.tableSizes] at hk
    rw [h.new.hasRoom, hbu, hk] at hroom
    have hlt := hover k hroom
    rw [← hk, ← hsize] at hlt
    have hi : newBlock - clusterIndex < g.blocksClusters :=
      Nat.lt_of_mul_lt_mul_right (hlt.trans_le hfits)
    rcases h.new.place with ⟨-, hblock⟩ | ⟨hother, -⟩
    · obtain ⟨c, hlow, hhigh, hzero⟩ := switchTable_hidden hg (i := newBlock - clusterIndex)
        (by rwa [hb]) (by omega) (by rwa [hb])
      rw [hall c hlow hhigh] at hzero
      exact absurd hzero one_ne_zero
    · rcases h.newBlock_far (.inr hother) with hlow | hhigh <;> omega
  · intro hno c hlow hhigh
    have hle := s₀.div_le_blocksUsed clusterIndex
    refine switchTable_counted hg (by omega) hlow hhigh fun i hi heq => hno ?_
    rw [hb] at hi
    have hi_lt : i < g.blocksClusters := Nat.lt_of_mul_lt_mul_right (hi.trans_le hfits)
    have hmod : clusterIndex % s₀.blockClusters = 0 := by
      by_contra hmod
      rcases h.newBlock_far (.inl hmod) with hlow | hhigh <;> omega
    obtain ⟨hbu, hstart⟩ := h.metaOffset_eq hmod
    refine ⟨hmod, by omega, fun k hk => ?_⟩
    have hleast := hg.size.least k (by rwa [h.new.hasRoom, h.new.tableSizes, hbu])
    rw [h.new.tableSizes] at hleast
    rw [show newBlock - clusterIndex = i by omega]
    exact (hsize ▸ hi).trans_le (metaClusters_mono hleast)

end

end Grown

/-- The growth for a cluster beyond the table, up to `maxReftableSize` blocks. -/
theorem allocRefcountBlock_grow {calls} (h₀ : s₀.Consistent)
    (hout : s₀.refcountTable.length ≤ clusterIndex / s₀.blockClusters) (hnew : s₀.newRefcountBlock
      (updateRefcount (calls + 2)) clusterIndex = some (s, .ok newBlock))
    (hused : (clusterIndex + s₀.blockClusters - 1) / s₀.blockClusters ≤ maxReftableSize) :
    ∃ g s', Grown s₀ s clusterIndex newBlock g ∧ TableFreed s newBlock g s' ∧
      s.growRefcountTable clusterIndex newBlock = some (.ok g) ∧
      s₀.allocRefcountBlock (updateRefcount (calls + 2)) clusterIndex =
        some (s', .error .eagain) := by
  have hn := newRefcountBlock_ok hnew
  have hb := hn.blockClusters
  have hpos := s₀.blockClusters_pos
  obtain ⟨g, hgrow, hg⟩ := growRefcountTable_ok newBlock (show s.refcountTable.length ≤
    clusterIndex / s.blockClusters by rwa [hn.refcountTable, hb]) (by rwa [hb])
  rw [hb] at hg
  have h : Grown s₀ s clusterIndex newBlock g := ⟨h₀, hout, hn, hused, hg⟩
  obtain ⟨s', r, hfree, hok⟩ := h.free_table calls
  refine ⟨g, s', h, hok, hgrow, ?_⟩
  have hle := s₀.div_le_blocksUsed clusterIndex
  rw [maxReftableSize] at hused
  have hmod : clusterIndex / s₀.blockClusters % 2 ^ 32 = clusterIndex / s₀.blockClusters :=
    mod_eq_of_lt (by omega)
  have hzero : s₀.blockOf (clusterIndex / s₀.blockClusters) = 0 := by
    by_contra hne
    exact absurd (lt_length_of_blockOf hne) (not_lt.2 hout)
  rw [allocRefcountBlock]
  rw [hmod, if_neg (not_not.2 hzero), hnew, bind_some]
  dsimp only
  rw [if_neg (by rw [hn.refcountTable]; omega), hgrow, bind_some]
  dsimp only
  rw [← cast_ofNat (n := 8), ← cast_mul, hfree]
  rfl

/-- The growth is as it should be unless the counts of the new metadata are hidden. -/
theorem Grown.selfDescribing_iff {g} (h : Grown s₀ s clusterIndex newBlock g)
    (hok : TableFreed s newBlock g s') :
    SelfDescribing s₀ s' clusterIndex newBlock g ↔ ¬ s₀.Overlays clusterIndex newBlock := by
  have hsame := hok.sameTable
  -- the counts of the new metadata stay when the old table is freed
  have hcount : ∀ c, g.metaOffset ≤ c →
      s'.getRefcount c = (s.switchTable newBlock g).getRefcount c := by
    intro c hc
    rcases hok with hok | ⟨k, hok⟩
    · exact hok.other c fun hk => h.before.table c (h.intersects_table hk) (h.unused hc)
    · exact hok.count c
  rw [← h.counted_iff]
  constructor
  · intro hself c hlow hhigh
    rw [← hcount c hlow]
    exact hself.counted c hlow hhigh
  · intro hcounted
    refine ⟨fun i hi => by rw [hsame.blockOf, h.blockOf_old hi],
      fun c hlow hhigh => by rw [hcount c hlow, hcounted c hlow hhigh],
      (hsame.layout h.layout).inj, ?_, fun hlt => ?_⟩
    · rintro c (⟨hlow, -⟩ | rfl)
      · exact h.unused hlow
      · exact h.new.unused
    · have hb := h.new.blockClusters
      rw [h.growth.metaOffset, hb, ← div_lt_iff_lt_mul s₀.blockClusters_pos] at hlt
      rw [hsame.blockOf, switchTable_blockOf h.growth, if_neg (by omega), if_pos (by rw [hb])]

/-- The growth of the table for a cluster beyond it ends, with a table that describes itself unless
the new block is in the way; tables for more than `maxReftableSize` blocks are refused. -/
theorem refcountTable_selfDescribing_iff {calls : ℕ} (h₀ : s₀.Consistent)
    (hout : s₀.refcountTable.length ≤ clusterIndex / s₀.blockClusters)
    (hnew : s₀.newRefcountBlock (updateRefcount (calls + 2)) clusterIndex =
      some (s, .ok newBlock)) :
    if maxReftableSize < (clusterIndex + s₀.blockClusters - 1) / s₀.blockClusters then
      s.growRefcountTable clusterIndex newBlock = some (.error .efbig)
    else
      ∃ g s', s.growRefcountTable clusterIndex newBlock = some (.ok g) ∧
        s₀.allocRefcountBlock (updateRefcount (calls + 2)) clusterIndex =
          some (s', .error .eagain) ∧
        (SelfDescribing s₀ s' clusterIndex newBlock g ↔ ¬ s₀.Overlays clusterIndex newBlock) := by
  split
  · next hbig =>
    rw [growRefcountTable, (newRefcountBlock_ok hnew).blockClusters]
    exact if_pos hbig
  · next hused =>
    obtain ⟨g, s', h, hok, hgrow, halloc⟩ := allocRefcountBlock_grow h₀ hout hnew (not_lt.1 hused)
    exact ⟨g, s', hgrow, halloc, h.selfDescribing_iff hok⟩

/-! ## A full table -/

/-- The first `n` blocks are behind the header, and all clusters that they describe are in use. -/
theorem consistent_of_inUse {n : ℕ} (hn : n < n * s.blockClusters)
    (hlen : s.refcountTable.length < 2 ^ 32)
    (hblock : ∀ i, s.blockOf i = if i < n then i + 1 else 0)
    (hused : ∀ b i, (s.blocks b i).toNat ≠ 0)
    (htable : ∀ c, s.InTable c → c < n * s.blockClusters) : s.Consistent := by
  have hget : ∀ c < n * s.blockClusters, s.getRefcount c ≠ 0 := by
    intro c hc
    have hd : s.Described c := by
      rw [Described, hblock, if_pos (Nat.div_lt_of_lt_mul (mul_comm n _ ▸ hc))]
      exact succ_ne_zero _
    rw [hd.getRefcount]
    exact hused _ _
  refine ⟨⟨hlen, fun i j heq hne => ?_⟩, hget 0 (by omega), fun c hc => hget c (htable c hc),
    fun i hi => ?_⟩
  · rw [hblock] at heq hne
    rw [hblock] at heq
    split_ifs at heq hne <;> omega
  · rw [hblock] at hi ⊢
    split_ifs at hi ⊢ with hlt
    · exact hget _ (by omega)
    · exact absurd rfl hi

/-- 512-byte clusters, a table of one cluster and all of its 64 · 256 clusters in use. -/
def fullTable : RefcountState where
  clusterBits := 9
  refcountTable := List.range' 1 64
  refcountTableOffset := 65
  blocks := fun _ _ => 1
  freeClusterIndex := 64 * 256
  taken := []
  bits_le := le_rfl
  le_bits := by decide

theorem fullTable_blockOf (i : ℕ) : fullTable.blockOf i = if i < 64 then i + 1 else 0 := by
  change (List.range' 1 64).getD i 0 = _
  rw [getD_eq_getElem?_getD]
  split
  · next hi =>
    rw [getElem?_range' hi, getD_some]
    omega
  · next hi =>
    rw [getElem?_eq_none (by rw [length_range']; omega), getD_none]

theorem fullTable_consistent : fullTable.Consistent :=
  consistent_of_inUse (n := 64) (by decide) (by decide) fullTable_blockOf (fun _ _ => one_ne_zero)
    fun c hc => by
      have hlt : c < 65 + 1 := hc.2
      change c < 64 * 256
      omega

/-- The new block for a cluster of the first block beyond the table is the first cluster there. -/
theorem fullTable_newRefcountBlock (update : Update) (hc : c / 256 = 64) :
    ∃ s, fullTable.newRefcountBlock update c = some (s, .ok (64 * 256)) := by
  exact ⟨_, if_pos hc.symm⟩

/-- For the second cluster beyond the table the new metadata describes itself. -/
theorem refcountTable_selfDescribing_second : ∃ s g s',
    fullTable.newRefcountBlock (updateRefcount 2) (64 * 256 + 1) = some (s, .ok (64 * 256)) ∧
      s.growRefcountTable (64 * 256 + 1) (64 * 256) = some (.ok g) ∧
      fullTable.allocRefcountBlock (updateRefcount 2) (64 * 256 + 1) = some (s', .error .eagain) ∧
      SelfDescribing fullTable s' (64 * 256 + 1) (64 * 256) g := by
  obtain ⟨s, hnew⟩ := fullTable_newRefcountBlock (updateRefcount 2)
    (show (64 * 256 + 1) / 256 = 64 by decide)
  have hgrow := refcountTable_selfDescribing_iff fullTable_consistent (by decide) hnew
  obtain ⟨g, s', hg, halloc, hiff⟩ := hgrow
  exact ⟨s, g, s', hnew, hg, halloc, hiff.2 fun hover => absurd hover.1 (by decide)⟩

/-- For the first cluster beyond the table the new metadata is put over the new block. The driver
takes the cluster behind it for free. -/
theorem refcountTable_selfDescribing_fail : ∃ s g s',
    fullTable.Consistent ∧
      fullTable.newRefcountBlock (updateRefcount 2) (64 * 256) = some (s, .ok (64 * 256)) ∧
      s.growRefcountTable (64 * 256) (64 * 256) = some (.ok g) ∧
      fullTable.allocRefcountBlock (updateRefcount 2) (64 * 256) = some (s', .error .eagain) ∧
      g.metaOffset = 64 * 256 ∧ s'.getRefcount (64 * 256 + 1) = 0 ∧
      ¬ SelfDescribing fullTable s' (64 * 256) (64 * 256) g := by
  obtain ⟨s, hnew⟩ := fullTable_newRefcountBlock (updateRefcount 2)
    (show 64 * 256 / 256 = 64 by decide)
  obtain ⟨g, s', h, hok, hgrow, halloc⟩ := allocRefcountBlock_grow fullTable_consistent
    (by decide) hnew (by decide)
  have hrun : (fullTable.allocRefcountBlock (updateRefcount 2) (64 * 256)).map
      (fun p => p.1.getRefcount (64 * 256 + 1)) = some 0 := by decide +kernel
  rw [halloc] at hrun
  refine ⟨s, g, s', fullTable_consistent, hnew, hgrow, halloc, (h.metaOffset_eq (by decide)).2,
    Option.some.inj hrun,
    fun hself => (h.selfDescribing_iff hok).1 hself ⟨by decide, le_rfl, fun k _ => ?_⟩⟩
  exact Nat.add_pos_right _ (Nat.add_pos_left Nat.one_pos _)

end RefcountState

end QemuArm
