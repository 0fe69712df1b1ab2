import QemuArm.Dispatch
import QemuArm.PageCache
import QemuArm.Xbzrle

/-!
# Saving RAM for live migration

`arch_init.c` : the sender walks the RAM blocks for pages whose bit is set in the migration
bitmap, clears the bit and puts the page on the stream as a zero page, as a delta over the cached
copy of the page (XBZRLE) or as it is; a page equal to its cached copy is skipped. Guest writes set
bits in the `DIRTY_MEMORY_MIGRATION` bitmap, which `migrationBitmapSync` moves to the migration
bitmap. In the bulk stage, the first walk over the blocks, the sender takes one page after the
other and does not look at the bits.

Offsets, lengths and addresses count target pages; only the cache is indexed by byte addresses. The
loops of the source run on fuel, and `none` stands for a crash of the sender or for a loop that
did not end within it.
-/

namespace QemuArm

/-! ## Pages and their deltas -/

/-- A target page that XBZRLE can encode : a whole number of words, and runs below `2 ^ 14`. -/
structure RamPage extends TargetPage where
  three_le : 3 ≤ bits
  le_thirteen : bits ≤ 13

/-- The bytes of a page. -/
def RamPage.Data (t : RamPage) : Type := { bytes : List Byte // bytes.length = t.size }

instance (t : RamPage) : DecidableEq t.Data :=
  inferInstanceAs (DecidableEq { bytes : List Byte // bytes.length = t.size })

/-- What the encoder makes of a page and its cached copy. -/
inductive XbzrleResult where
  | unchanged
  | overflow
  | delta (bytes : List Byte)

/-- Contents of pages with a delta encoding. -/
structure XbzrleCodec (α : Type) where
  pageSize : ℕ
  pageSize_pos : 0 < pageSize
  pageSize_even : 2 ∣ pageSize
  /-- `ZERO_TARGET_PAGE`. -/
  zero : α
  encode : α → α → XbzrleResult
  decode : α → List Byte → Option α
  eq_of_unchanged : ∀ {old new : α}, encode old new = .unchanged → old = new
  decode_delta : ∀ {old new : α} {bytes : List Byte},
    encode old new = .delta bytes → decode old bytes = some new

/-- The result of `xbzrle_encode_buffer` as `save_xbzrle_page` tells it apart. -/
def EncodeResult.toXbzrle : EncodeResult → XbzrleResult
  | .abort _ => .overflow
  | .overflow _ => .overflow
  | .done [] => .unchanged
  | .done (b :: bytes) => .delta (b :: bytes)

/-- The pages of the target with the encoder and the decoder of `xbzrle.c`. -/
def RamPage.codec (t : RamPage) : XbzrleCodec t.Data where
  pageSize := t.size
  pageSize_pos := Nat.two_pow_pos _
  pageSize_even := dvd_pow_self 2 (by have := t.three_le; omega)
  zero := ⟨List.replicate t.size 0, List.length_replicate⟩
  encode old new := (xbzrleEncodeBuffer old.1 new.1 t.size).toXbzrle
  decode old bytes :=
    (xbzrleDecodeBuffer bytes old.1).bind fun bytes =>
      if h : bytes.length = t.size then some ⟨bytes, h⟩ else none
  eq_of_unchanged := by
    intro old new h
    have hlen : old.1.length = new.1.length := by rw [old.2, new.2]
    cases hr : xbzrleEncodeBuffer old.1 new.1 t.size with
    | abort dst | overflow dst => rw [hr] at h; cases h
    | done dst =>
      rw [hr] at h
      cases dst with
      | nil => exact Subtype.ext (eq_of_xbzrleEncodeBuffer_nil hlen hr)
      | cons b bytes => cases h
  decode_delta := by
    intro old new bytes h
    have hlen : old.1.length = new.1.length := by rw [old.2, new.2]
    cases hr : xbzrleEncodeBuffer old.1 new.1 t.size with
    | abort dst | overflow dst => rw [hr] at h; cases h
    | done dst =>
      rw [hr] at h
      cases dst with
      | nil => cases h
      | cons b bs =>
        obtain rfl := XbzrleResult.delta.inj h
        rw [xbzrleDecodeBuffer_encode hlen hr, Option.bind_some, dif_pos new.2]
        rfl

/-! ## The sender's state -/

structure RAMBlock where
  ptr : ℕ
  idstr : String
  offset : ℕ
  length : ℕ
  length_pos : 0 < length

/-- `ram_list.blocks` : blocks apart from each other, with names of their own. -/
structure RAMList where
  blocks : List RAMBlock
  ptr_nodup : (blocks.map RAMBlock.ptr).Nodup
  idstr_nodup : (blocks.map RAMBlock.idstr).Nodup
  disjoint : blocks.Pairwise fun a b =>
    a.offset + a.length ≤ b.offset ∨ b.offset + b.length ≤ a.offset

/-- What follows the header of a page on the stream; `control` is a page that the transport's
`save_page` hook took. -/
inductive PageBody (α : Type) where
  | compress
  | page (data : α)
  | xbzrle (bytes : List Byte)
  | control (data : α)

/-- A page on the stream. No block name stands for `RAM_SAVE_FLAG_CONTINUE`. -/
structure PageRecord (α : Type) where
  block : Option String
  offset : ℕ
  body : PageBody α

/-- The globals of `arch_init.c` and what they are about. `stream` has the pages put on the stream
since `ram_save_setup`. -/
structure RamState (α : Type) where
  ramList : RAMList
  version : ℕ
  useXbzrle : Bool
  mem : ℕ → α
  dirtyMemory : ℕ → Bool
  migrationBitmap : ℕ → Bool
  migrationDirtyPages : ℕ
  lastSeenBlock : Option ℕ
  lastSentBlock : Option ℕ
  lastOffset : ℕ
  lastVersion : ℕ
  ramBulkStage : Bool
  cache : Option (PageCache α)
  stream : List (PageRecord α)

/-- What `ram_control_save_page` answers : the transport has no hook, it took the page, or it
failed and left `bytes_sent` at −1. -/
inductive SaveControl where
  | notSupp
  | taken
  | failed

/-- What a call meets outside : the transport's answer for each page, and whether there is memory
for another page of the cache. -/
structure SaveEnv where
  control : ℕ → SaveControl
  alloc : Bool

/-- The position of the block that `ptr` points to. -/
def RAMList.index (l : RAMList) (ptr : ℕ) : ℕ := l.blocks.findIdx fun b => b.ptr = ptr

/-- `last_ram_offset`, in pages. -/
def RAMList.lastRamOffset (l : RAMList) : ℕ :=
  l.blocks.foldr (fun b m => max (b.offset + b.length) m) 0

variable {α : Type}

/-! ## The migration bitmap -/

/-- `find_next_bit`. -/
def findNextBit (bits : ℕ → Bool) (size offset : ℕ) : ℕ :=
  ((List.range' offset (size - offset)).find? bits).getD size

variable (st : RamState α)

/-- `clear_bit` with the count of dirty pages. -/
def RamState.clearDirty (page : ℕ) : RamState α :=
  { st with
    migrationBitmap := Function.update st.migrationBitmap page false
    migrationDirtyPages := (st.migrationDirtyPages + 2 ^ 64 - 1) % 2 ^ 64 }

/-- `migration_bitmap_find_and_reset_dirty` : the state and the offset that it returns. -/
def migrationBitmapFindAndResetDirty (block : RAMBlock) (start : ℕ) : RamState α × ℕ :=
  let base := block.offset
  let nr := base + start
  let size := base + block.length
  let next :=
    if st.ramBulkStage ∧ base < nr then nr + 1 else findNextBit st.migrationBitmap size nr
  if next < size then (st.clearDirty next, next - base) else (st, next - base)

/-- `migration_bitmap_set_dirty`. The number of the page is an `int` there : from `2 ^ 31` on it is
another page's or negative. A negative number is no bit of the bitmap, and the write to the memory
before it is not followed. -/
def migrationBitmapSetDirty (page : ℕ) : RamState α :=
  let nr := page % 2 ^ 32
  if 2 ^ 31 ≤ nr then st
  else
    { st with
      migrationBitmap := Function.update st.migrationBitmap nr true
      migrationDirtyPages :=
        if st.migrationBitmap nr then st.migrationDirtyPages
        else (st.migrationDirtyPages + 1) % 2 ^ 64 }

/-- One word of the fast path of `migration_bitmap_sync_range`. -/
def syncWord (k : ℕ) : RamState α :=
  if (List.range' (64 * k) 64).any st.dirtyMemory then
    { st with
      migrationBitmap := fun x =>
        if x / 64 = k then st.migrationBitmap x || st.dirtyMemory x else st.migrationBitmap x
      migrationDirtyPages := (st.migrationDirtyPages + ((List.range' (64 * k) 64).filter fun x =>
        !st.migrationBitmap x && st.dirtyMemory x).length) % 2 ^ 64
      dirtyMemory := fun x => if x / 64 = k then false else st.dirtyMemory x }
  else st

/-- One page of the slow path of `migration_bitmap_sync_range`. -/
def syncPage (page : ℕ) : RamState α :=
  if st.dirtyMemory page then
    migrationBitmapSetDirty { st with dirtyMemory := Function.update st.dirtyMemory page false }
      page
  else st

/-- `migration_bitmap_sync_range`. -/
def migrationBitmapSyncRange (start length : ℕ) : RamState α :=
  let page := start / 64
  if page * 64 = start then (List.range' page ((length + 63) / 64)).foldl syncWord st
  else (List.range' start length).foldl syncPage st

/-- `migration_bitmap_sync`, without its statistics. -/
def migrationBitmapSync : RamState α :=
  st.ramList.blocks.foldl (fun st b => migrationBitmapSyncRange st b.offset b.length) st

/-! ## Sending a page -/

/-- A page on the stream : `save_block_hdr` and what follows it. -/
def RamState.put (block : RAMBlock) (offset : ℕ) (body : PageBody α) : RamState α :=
  { st with
    stream := st.stream ++
      [⟨if st.lastSentBlock = some block.ptr then none else some block.idstr, offset, body⟩] }

/-- The size that `save_block_hdr` returns. -/
def RamState.hdrSize (block : RAMBlock) : ℤ :=
  if st.lastSentBlock = some block.ptr then 8 else 8 + 1 + block.idstr.utf8ByteSize

section Codec

variable (c : XbzrleCodec α)

/-- `xbzrle_cache_zero_page`. -/
def xbzrleCacheZeroPage (env : SaveEnv) (st : RamState α) (page : ℕ) : Option (RamState α) :=
  if st.ramBulkStage ∨ ¬st.useXbzrle then some st
  else do
    let cache ← st.cache
    match cache.cacheInsert env.alloc (page * c.pageSize) c.zero with
    | some cache => some { st with cache := some cache }
    | none => some st

/-- `save_xbzrle_page` : the state and `bytes_sent`. -/
def saveXbzrlePage (lastStage : Bool) (env : SaveEnv) (st : RamState α) (block : RAMBlock)
    (offset : ℕ) : Option (RamState α × ℤ) := do
  let addr := (block.offset + offset) * c.pageSize
  let data := st.mem (block.offset + offset)
  let cache ← st.cache
  if ¬cache.cacheIsCached addr then
    if lastStage then some (st, -1)
    else match cache.cacheInsert env.alloc addr data with
      | some cache => some ({ st with cache := some cache }, -1)
      | none => some (st, -1)
  else do
    let prev ← cache.getCachedData addr
    match c.encode prev data with
    | .unchanged => some (st, 0)
    | .overflow => some ({ st with cache := some (cache.updateCachedData addr data) }, -1)
    | .delta bytes =>
      let st' :=
        if lastStage then st else { st with cache := some (cache.updateCachedData addr data) }
      some (st'.put block offset (.xbzrle bytes), st.hdrSize block + bytes.length + 1 + 2)

variable [DecidableEq α]

/-- The branch of `ram_save_block` for a dirty page : the state and `bytes_sent`. -/
def ramSavePage (lastStage : Bool) (env : SaveEnv) (st : RamState α) (block : RAMBlock)
    (offset : ℕ) : Option (RamState α × ℤ) :=
  let page := block.offset + offset
  let data := st.mem page
  match env.control page with
  | .taken =>
    some ({ st with stream := st.stream ++ [⟨some block.idstr, offset, .control data⟩] }, 1)
  | .failed => some (st.put block offset (.page data), st.hdrSize block + c.pageSize)
  | .notSupp =>
    if data = c.zero then do
      let st' ← xbzrleCacheZeroPage c env (st.put block offset .compress) page
      some (st', st.hdrSize block + 1)
    else if ¬st.ramBulkStage ∧ st.useXbzrle then do
      let (st', sent) ← saveXbzrlePage c lastStage env st block offset
      if sent = -1 then do
        -- Outside the last stage the cached copy is sent.
        let data ← if lastStage then some data
          else st'.cache.bind fun cache => cache.getCachedData (page * c.pageSize)
        some (st'.put block offset (.page data), st.hdrSize block + c.pageSize)
      else some (st', sent)
    else some (st.put block offset (.page data), st.hdrSize block + c.pageSize)

/-- The loop of `ram_save_block`. -/
def ramSaveBlockLoop (lastStage : Bool) (env : SaveEnv) :
    ℕ → RamState α → RAMBlock → ℕ → Bool → ℤ → Option (RamState α × ℤ)
  | 0, _, _, _, _, _ => none
  | fuel + 1, st, block, start, completeRound, bytesSent =>
    let found := migrationBitmapFindAndResetDirty st block start
    let st := found.1
    let offset := found.2
    if completeRound ∧ st.lastSeenBlock = some block.ptr ∧ st.lastOffset ≤ offset then
      some ({ st with lastSeenBlock := some block.ptr, lastOffset := offset }, bytesSent)
    else if block.length ≤ offset then
      match st.ramList.blocks[st.ramList.index block.ptr + 1]?, st.ramList.blocks.head? with
      | some next, _ => ramSaveBlockLoop lastStage env fuel st next 0 completeRound bytesSent
      | none, some first =>
        ramSaveBlockLoop lastStage env fuel { st with ramBulkStage := false } first 0 true bytesSent
      | none, none => none
    else do
      let (st, bytesSent) ← ramSavePage c lastStage env st block offset
      if 0 < bytesSent then
        some ({ st with
          lastSentBlock := some block.ptr
          lastSeenBlock := some block.ptr
          lastOffset := offset }, bytesSent)
      else ramSaveBlockLoop lastStage env fuel st block offset completeRound bytesSent

/-- The block that `ram_save_block` starts at. -/
def RamState.firstBlock (st : RamState α) : Option RAMBlock :=
  match st.lastSeenBlock with
  | some ptr => st.ramList.blocks[st.ramList.index ptr]?
  | none => st.ramList.blocks.head?

/-- Rounds enough for every dirty page and for two walks over the blocks. -/
def RamState.rounds (st : RamState α) : ℕ :=
  st.ramList.lastRamOffset + 2 * st.ramList.blocks.length + 2

/-- `ram_save_block` : the state and the number of bytes written. -/
def ramSaveBlock (lastStage : Bool) (env : SaveEnv) (st : RamState α) :
    Option (RamState α × ℤ) := do
  let block ← st.firstBlock
  ramSaveBlockLoop c lastStage env st.rounds st block st.lastOffset false 0

/-! ## Setting up, iterating and completing -/

/-- `reset_ram_globals`. -/
def resetRamGlobals (st : RamState α) : RamState α :=
  { st with
    lastSeenBlock := none
    lastSentBlock := none
    lastOffset := 0
    lastVersion := st.version
    ramBulkStage := true }

/-- `ram_save_setup` with a cache of `cacheSize` bytes; none when it returns −1. -/
def ramSaveSetup (alloc : Bool) (cacheSize : ℤ) (st : RamState α) : Option (RamState α) := do
  let ramPages := st.ramList.lastRamOffset
  let cache ←
    (if st.useXbzrle then (cacheInit alloc (cacheSize / c.pageSize) c.pageSize).map some
     else some st.cache)
  some (migrationBitmapSync (resetRamGlobals { st with
    migrationBitmap := fun x => decide (x < ramPages)
    migrationDirtyPages := ramPages
    cache := cache
    stream := [] }))

/-- The check at the start of `ram_save_iterate`. -/
def ramSaveIterateBegin (st : RamState α) : RamState α :=
  if st.version ≠ st.lastVersion then resetRamGlobals st else st

/-- The loop of `ram_save_complete`. -/
def ramSaveCompleteLoop (envs : ℕ → SaveEnv) : ℕ → RamState α → Option (RamState α)
  | 0, _ => none
  | fuel + 1, st => do
    let (st, bytesSent) ← ramSaveBlock c true (envs fuel) st
    if bytesSent = 0 then some st else ramSaveCompleteLoop envs fuel st

end Codec

/-- A guest write : `cpu_physical_memory_set_dirty` for the page. -/
def guestWrite (page : ℕ) (data : α) : RamState α :=
  { st with
    mem := Function.update st.mem page data
    dirtyMemory := Function.update st.dirtyMemory page true }

end QemuArm
