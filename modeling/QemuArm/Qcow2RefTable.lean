import Mathlib

/-!
# The refcount structures of a qcow2 image

`update_refcount`, `alloc_refcount_block` and what they use of `qcow2-refcount.c`. The refcount
table has, for each block of refcounts, the cluster that the block is in, or zero. Offsets of blocks
and tables are multiples of the cluster size and given by their clusters. `blocks` are the contents
of the blocks as the driver sees them, through its cache; requests to the file succeed.

The two functions call each other. `updateRefcount` is given the number of calls that may be open
at a time, and is `none` when there are more. A write outside of an array and a loop that does not
end are `none` too.

`taken` is history : the clusters that were taken for refcount blocks and tables.
-/

namespace QemuArm

structure RefcountState where
  clusterBits : ℕ
  /-- for each block the cluster it is in, or zero -/
  refcountTable : List ℕ
  /-- the first cluster of the table -/
  refcountTableOffset : ℕ
  blocks : ℕ → ℕ → BitVec 16
  freeClusterIndex : ℕ
  taken : List ℕ
  /-- `MIN_CLUSTER_BITS` and `MAX_CLUSTER_BITS` -/
  bits_le : 9 ≤ clusterBits
  le_bits : clusterBits ≤ 21

inductive RefcountError
  | einval
  | eagain
  | efbig
deriving DecidableEq

namespace RefcountState

variable (s : RefcountState)

def clusterSize : ℕ := 2 ^ s.clusterBits

/-- The clusters that one refcount block describes. -/
def blockClusters : ℕ := 2 ^ (s.clusterBits - 1)

/-- The cluster of the refcount block with a number, or zero. -/
def blockOf (i : ℕ) : ℕ := s.refcountTable.getD i 0

/-- `get_refcount`. -/
def getRefcount (clusterIndex : ℕ) : ℕ :=
  let block := s.blockOf (clusterIndex / s.blockClusters)
  if block = 0 then 0 else (s.blocks block (clusterIndex % s.blockClusters)).toNat

/-- One entry of a refcount block. -/
def setRefcount (block i : ℕ) (v : BitVec 16) : RefcountState :=
  { s with blocks := Function.update s.blocks block (Function.update (s.blocks block) i v) }

/-- `size_to_clusters`. -/
def sizeToClusters (size : ℕ) : ℕ := (size + (s.clusterSize - 1)) / s.clusterSize

/-! ## Searching -/

/-- The loop of `alloc_clusters_noref` for one cluster : the first from `i` on with no refcount. -/
def freeCluster : ℕ → ℕ → ℕ
  | 0, i => i
  | n + 1, i => if s.getRefcount i = 0 then i else freeCluster n (i + 1)

/-- `alloc_clusters_noref` for one cluster. Clusters beyond the table have no refcount, so the
search looks at no more than those of the table. -/
def allocClusterNoref : RefcountState × ℕ :=
  let i := s.freeCluster (s.refcountTable.length * s.blockClusters) s.freeClusterIndex
  ({ s with freeClusterIndex := i + 1 }, i)

/-! ## A larger table -/

/-- The loop of `next_refcount_table_size`, in `unsigned int`. -/
def growClusters (minClusters : ℕ) : ℕ → ℕ → Option ℕ
  | 0, _ => none
  | fuel + 1, clusters =>
    if clusters < minClusters then
      growClusters minClusters fuel ((clusters * 3 + 1) % 2 ^ 32 / 2)
    else some clusters

/-- `next_refcount_table_size`, in entries. -/
def nextRefcountTableSize (minSize : ℕ) : Option ℕ :=
  let entries := 2 ^ (s.clusterBits - 3)
  let minClusters := minSize % 2 ^ 32 / entries + 1
  (growClusters minClusters minClusters (max 1 (s.refcountTable.length / entries))).map fun n =>
    n * entries % 2 ^ 32

/-- The clusters of the refcount blocks that describe a table and themselves. -/
def blocksClusters (tableSize : ℕ) : ℕ :=
  1 + (s.sizeToClusters (tableSize * 8) + s.blockClusters - 1) / s.blockClusters

/-- The `do` loop of `alloc_refcount_block`, which looks for a table that is large enough for the
blocks which describe the table. -/
def growTableSize (blocksUsed : ℕ) : ℕ → ℕ → Option ℕ
  | 0, _ => none
  | fuel + 1, tableSize =>
    let metaClusters := s.sizeToClusters (tableSize * 8) + s.blocksClusters tableSize
    (s.nextRefcountTableSize (blocksUsed + (metaClusters + s.blockClusters - 1) /
      s.blockClusters)).bind fun next =>
        if tableSize ≠ next then growTableSize blocksUsed fuel next else some tableSize

/-- A write to an array, `none` outside of it. -/
def writeEntry (l : List ℕ) (i v : ℕ) : Option (List ℕ) :=
  if i < l.length then some (l.set i v) else none

/-- A loop that writes `f 0`, `f 1` and so on from an index on. -/
def writeEntries (i : ℕ) (f : ℕ → ℕ) : ℕ → List ℕ → Option (List ℕ)
  | 0, l => some l
  | n + 1, l => (writeEntries i f n l).bind fun l => writeEntry l (i + n) (f n)

/-- What the growth of the table writes to the file. -/
structure Growth where
  /-- `meta_offset`, as a cluster -/
  metaOffset : ℕ
  blocksClusters : ℕ
  tableClusters : ℕ
  newTable : List ℕ
  newBlocks : List ℕ

/-- `table_offset`, as a cluster. -/
def Growth.tableOffset (g : Growth) : ℕ := g.metaOffset + g.blocksClusters

/-- `QCOW_MAX_REFTABLE_SIZE / sizeof(uint64_t)`. -/
def maxReftableSize : ℕ := 2 ^ 20

/-- The second half of `alloc_refcount_block`, up to the writes : a table that has room for
`clusterIndex`, with `newBlock` and the blocks which describe the new table and themselves. -/
def growRefcountTable (clusterIndex newBlock : ℕ) : Option (Except RefcountError Growth) :=
  let blocksUsed := (clusterIndex + s.blockClusters - 1) / s.blockClusters
  if maxReftableSize < blocksUsed then some (.error .efbig)
  else do
    let tableSize ← s.nextRefcountTableSize (blocksUsed + 1)
    let tableSize ← s.growTableSize blocksUsed (blocksUsed + 4) tableSize
    let blocksClusters := s.blocksClusters tableSize
    let metaOffset := blocksUsed * s.blockClusters
    -- the old table is copied into a zeroed array
    let newTable ← writeEntries 0 s.blockOf s.refcountTable.length (List.replicate tableSize 0)
    let newTable ← writeEntry newTable (clusterIndex / s.blockClusters % 2 ^ 32) newBlock
    let newTable ← writeEntries blocksUsed (fun i => metaOffset + i) blocksClusters newTable
    let tableClusters := s.sizeToClusters (tableSize * 8)
    let newBlocks ← writeEntries 0 (fun _ => 1) (tableClusters + blocksClusters)
      (List.replicate (blocksClusters * s.blockClusters) 0)
    some (.ok ⟨metaOffset, blocksClusters, tableClusters, newTable, newBlocks⟩)

/-- The switch to the new table. The new blocks are written past the cache, so a block that is in
it, as the one just made, is seen as it was. This takes that block to stay in the cache, also when
the old table is freed; if the few entries of the cache were all used again by then, it would be
read from the file. -/
def switchTable (newBlock : ℕ) (g : Growth) : RefcountState :=
  { s with
    refcountTable := g.newTable
    refcountTableOffset := g.tableOffset
    blocks := fun b =>
      if g.metaOffset ≤ b ∧ b < g.metaOffset + g.blocksClusters ∧ b ≠ newBlock then
        fun i => BitVec.ofNat 16 (g.newBlocks.getD ((b - g.metaOffset) * s.blockClusters + i) 0)
      else s.blocks b
    taken := List.range' g.metaOffset (g.blocksClusters + g.tableClusters) ++ s.taken }

/-! ## Refcounts -/

/-- A call of `update_refcount` with an offset, a length and an addend. -/
abbrev Update := RefcountState → ℕ → ℤ → ℤ → Option (RefcountState × Except RefcountError Unit)

/-- The first half of `alloc_refcount_block`, when there is no block for the cluster : the new
block, described by itself or by another one. -/
def newRefcountBlock (update : Update) (clusterIndex : ℕ) :
    Option (RefcountState × Except RefcountError ℕ) :=
  let (s, newBlock) := s.allocClusterNoref
  let s := { s with taken := newBlock :: s.taken }
  if newBlock / s.blockClusters = clusterIndex / s.blockClusters then
    let block := Function.update (fun _ => 0) (newBlock % s.blockClusters) 1
    some ({ s with blocks := Function.update s.blocks newBlock block }, .ok newBlock)
  else
    (update s (newBlock * s.clusterSize) s.clusterSize 1).map fun
      | (s, .error e) => (s, .error e)
      | (s, .ok ()) =>
        ({ s with blocks := Function.update s.blocks newBlock fun _ => 0 }, .ok newBlock)

/-- The block gets its entry in the table. -/
def hookup (refcountTableIndex newBlock : ℕ) : RefcountState :=
  { s with refcountTable := s.refcountTable.set refcountTableIndex newBlock }

/-- `alloc_refcount_block` : the cluster of the block. -/
def allocRefcountBlock (update : Update) (clusterIndex : ℕ) :
    Option (RefcountState × Except RefcountError ℕ) :=
  let refcountTableIndex := clusterIndex / s.blockClusters % 2 ^ 32
  if s.blockOf refcountTableIndex ≠ 0 then some (s, .ok (s.blockOf refcountTableIndex))
  else
    (s.newRefcountBlock update clusterIndex).bind fun
      | (s, .error e) => some (s, .error e)
      | (s, .ok newBlock) =>
        if refcountTableIndex < s.refcountTable.length then
          -- the block may be where the caller wanted to put its data
          some (s.hookup refcountTableIndex newBlock, .error .eagain)
        else
          (s.growRefcountTable clusterIndex newBlock).bind fun
            | .error e => some (s, .error e)
            | .ok g =>
              (update (s.switchTable newBlock g) (s.refcountTableOffset * s.clusterSize)
                (s.refcountTable.length * 8) (-1)).map fun (s, _) => (s, .error .eagain)

/-- The block that the loop of `update_refcount` has for a cluster; `cur` is the number of the
current one and the cluster it is in. -/
def loadBlock (update : Update) (cur : Option (ℕ × ℕ)) (clusterIndex : ℕ) :
    Option (RefcountState × Except RefcountError ℕ) :=
  match cur with
  | some (old, block) =>
    if clusterIndex / s.blockClusters = old then some (s, .ok block)
    else s.allocRefcountBlock update clusterIndex
  | none => s.allocRefcountBlock update clusterIndex

/-- The loop of `update_refcount`. After an error the cluster is returned at which it happened. -/
def updateLoop (update : Update) (addend : ℤ) : List ℕ → Option (ℕ × ℕ) → RefcountState →
    Option (RefcountState × Option (ℕ × RefcountError))
  | [], _, s => some (s, none)
  | clusterIndex :: rest, cur, s =>
    let tableIndex := clusterIndex / s.blockClusters
    (s.loadBlock update cur clusterIndex).bind fun
      | (s, .error e) => some (s, some (clusterIndex, e))
      | (s, .ok block) =>
        let refcount : ℤ := (s.blocks block (clusterIndex % s.blockClusters)).toNat + addend
        if refcount < 0 ∨ 0xffff < refcount then some (s, some (clusterIndex, .einval))
        else
          let s :=
            if refcount = 0 ∧ clusterIndex < s.freeClusterIndex then
              { s with freeClusterIndex := clusterIndex }
            else s
          updateLoop update addend rest (some (tableIndex, block))
            (s.setRefcount block (clusterIndex % s.blockClusters) (BitVec.ofNat 16 refcount.toNat))

/-- The clusters from that of `offset` to that of the last byte, for a positive length. -/
def clustersOf (offset : ℕ) (length : ℤ) : List ℕ :=
  let start := offset / s.clusterSize
  List.range' start ((offset + length.toNat - 1) / s.clusterSize + 1 - start)

/-- `update_refcount`. After an error what was done is taken back, by a call for the clusters
before the one at which it happened. -/
def updateRefcount : ℕ → Update
  | 0, _, _, _, _ => none
  | calls + 1, s, offset, length, addend =>
    if length < 0 then some (s, .error .einval)
    else if length = 0 then some (s, .ok ())
    else
      (updateLoop (updateRefcount calls) addend (s.clustersOf offset length) none s).bind fun
        | (s, none) => some (s, .ok ())
        | (s, some (clusterIndex, e)) =>
          (updateRefcount calls s offset (clusterIndex * s.clusterSize - offset) (-addend)).map
            fun (s, _) => (s, .error e)

end RefcountState

end QemuArm
