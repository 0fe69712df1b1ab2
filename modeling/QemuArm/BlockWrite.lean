import QemuArm.TrackedRequest

/-!
# Writes to a block device

`bdrv_co_do_pwritev` with its read-modify-write cycle, and `bdrv_co_do_preadv`, as
coroutines on one device. A coroutine runs until it waits for another request or for the
driver; `running` is the one that runs, if any. The driver transfers the bytes of a request
one at a time and in any order (`fetch`, `apply`), or fails. Requests that are refused
before they are tracked have no effect and are left out. A failed assertion or the use of a
null pointer stops the program, with its reason in `aborted`.
-/

namespace QemuArm

/-- A byte on a device. -/
abbrev DiskByte := BitVec 8

/-! ## `bdrv_co_do_write_zeroes` -/

/-- `BDRV_SECTOR_SIZE` -/
def bdrvSectorSize : ℕ := 512

/-- The limits of the driver, with `max_write_zeroes` as the code reads it : zero stands for
`MAX_WRITE_ZEROES_DEFAULT`. -/
structure BlockLimits where
  writeZeroesAlignment : ℕ
  maxWriteZeroes : ℕ

def maxWriteZeroesDefault : ℕ := 32768

def BlockLimits.max (bl : BlockLimits) : ℕ :=
  if bl.maxWriteZeroes ≠ 0 then bl.maxWriteZeroes else maxWriteZeroesDefault

/-- The sectors of the next request of the loop. -/
def BlockLimits.num (bl : BlockLimits) (sectorNum nbSectors : ℕ) : ℕ :=
  let num :=
    if bl.writeZeroesAlignment ≠ 0 ∧ bl.writeZeroesAlignment < nbSectors then
      if sectorNum % bl.writeZeroesAlignment ≠ 0 then
        bl.writeZeroesAlignment - sectorNum % bl.writeZeroesAlignment
      else if (sectorNum + nbSectors) % bl.writeZeroesAlignment ≠ 0 then
        nbSectors - (sectorNum + nbSectors) % bl.writeZeroesAlignment
      else nbSectors
    else nbSectors
  min num bl.max

theorem BlockLimits.num_pos (bl : BlockLimits) (sectorNum : ℕ) {nbSectors : ℕ}
    (h : 0 < nbSectors) : 0 < bl.num sectorNum nbSectors := by
  have hmax : 0 < bl.max := by
    unfold BlockLimits.max maxWriteZeroesDefault
    split_ifs <;> omega
  unfold BlockLimits.num
  dsimp only
  split_ifs with h1 h2 h3
  · have := Nat.mod_lt sectorNum (pos_of_ne_zero h1.1)
    omega
  · have := Nat.mod_lt (sectorNum + nbSectors) (pos_of_ne_zero h1.1)
    omega
  · omega
  · omega

theorem BlockLimits.num_le (bl : BlockLimits) (sectorNum nbSectors : ℕ) :
    bl.num sectorNum nbSectors ≤ nbSectors := by
  unfold BlockLimits.num
  dsimp only
  split_ifs <;> omega

/-- The sectors that the requests of the loop write, in their order. -/
def bdrvCoDoWriteZeroes (bl : BlockLimits) (sectorNum nbSectors : ℕ) : List ℕ :=
  if 0 < nbSectors then
    List.range' sectorNum (bl.num sectorNum nbSectors) ++
      bdrvCoDoWriteZeroes bl (sectorNum + bl.num sectorNum nbSectors)
        (nbSectors - bl.num sectorNum nbSectors)
  else []
termination_by nbSectors
decreasing_by
  rename_i h
  have := bl.num_pos sectorNum h
  omega

/-- The loop writes every sector once. -/
theorem bdrvCoDoWriteZeroes_eq (bl : BlockLimits) (sectorNum nbSectors : ℕ) :
    bdrvCoDoWriteZeroes bl sectorNum nbSectors = List.range' sectorNum nbSectors := by
  induction nbSectors using Nat.strong_induction_on generalizing sectorNum with
  | _ nbSectors ih =>
    rw [bdrvCoDoWriteZeroes]
    split_ifs with h
    · have hpos := bl.num_pos sectorNum h
      have hle := bl.num_le sectorNum nbSectors
      rw [ih _ (by omega), List.range'_append_1, Nat.add_sub_cancel' hle]
    · obtain rfl : nbSectors = 0 := by omega
      rfl

/-! ## Coroutines -/

/-- Where a request stands. The buffers of reads are filled byte by byte, `left` are the
indices of the bytes that the driver has not transferred. -/
inductive BlockPc where
  | idle
  /-- before the test for an unaligned head -/
  | head
  | headWait
  | headReadWait
  | headRead (buf : List DiskByte) (left : List ℕ)
  /-- before the test for an unaligned tail -/
  | tail
  | tailWait (waited : Bool)
  | tailReadWait
  | tailRead (buf : List DiskByte) (left : List ℕ)
  | writeWait (waited : Bool)
  | write (left : List ℕ)
  | readWait
  | read
  | done (ok : Bool)

/-- A call of `bdrv_co_do_pwritev`, or of `bdrv_co_do_preadv`. The arguments of the call are
`offset₀`, `bytes₀` and `qiov`, which is `NULL` for zero writes; the others are locals. -/
structure BlockCo where
  isWrite : Bool
  offset₀ : ℕ
  bytes₀ : ℕ
  qiov : Option (List DiskByte)
  offset : ℕ
  bytes : ℕ
  localQiov : Option (List DiskByte)
  pc : BlockPc

/-- Why the program stopped. -/
inductive BlockAbort where
  /-- `assert(!waited || !use_local_qiov)` -/
  | tailWaited
  /-- `assert(!waited || !req->serialising)` -/
  | serialisingWaited
  /-- the write leaves the range that the request keeps -/
  | outsideOverlap
  /-- `qiov->niov` with `qiov == NULL` -/
  | nullQiov
  deriving DecidableEq

structure BlockState where
  tracker : Tracker
  co : ℕ → BlockCo
  running : Option ℕ
  device : ℕ → DiskByte
  aborted : Option BlockAbort

def BlockState.init (device : ℕ → DiskByte) : BlockState where
  tracker := Tracker.init
  co := fun _ => ⟨false, 0, 0, none, 0, 0, none, .idle⟩
  running := none
  device := device
  aborted := none

namespace BlockState

@[simp] def setCo (s : BlockState) (r : ℕ) (co : BlockCo) : BlockState :=
  { s with co := Function.update s.co r co }

@[simp] def setPc (s : BlockState) (r : ℕ) (pc : BlockPc) : BlockState :=
  s.setCo r { s.co r with pc := pc }

/-- The coroutine stops for the driver or another request. -/
@[simp] def yield (s : BlockState) : BlockState := { s with running := none }

@[simp] def abort (s : BlockState) (reason : BlockAbort) : BlockState :=
  { s with aborted := some reason, running := none }

end BlockState

section Program

variable (align : ℕ) (bl : BlockLimits)

/-- `bdrv_co_do_pwritev` up to `tracked_request_begin`. -/
def bdrvCoDoPwritev (r offset bytes : ℕ) (qiov : Option (List DiskByte)) (s : BlockState) :
    BlockState :=
  { s.setCo r ⟨true, offset, bytes, qiov, offset, bytes, none, .head⟩ with
    tracker := trackedRequestBegin r offset bytes true s.tracker
    running := some r }

/-- `bdrv_co_do_preadv` pads the request, starts tracking it, and `bdrv_aligned_preadv` marks
a request that copies on read, with the size of a cluster. -/
def bdrvCoDoPreadv (r offset bytes : ℕ) (copyOnRead : Option ℕ) (s : BlockState) : BlockState :=
  let start := alignDown offset align
  let length := roundUp (offset % align + bytes) align
  let tracker := trackedRequestBegin r start length false s.tracker
  { s.setCo r ⟨false, offset, bytes, none, start, length, none, .readWait⟩ with
    tracker := match copyOnRead with
      | some cluster => markRequestSerialising r cluster tracker
      | none => tracker
    running := some r }

/-- A round of `wait_serialising_requests` : it waits, with `waiting` as the state of the
coroutine, or returns and goes on with `next`. -/
def bdrvWait (r : ℕ) (waiting : BlockPc) (next : BlockState → BlockState) (s : BlockState) :
    Option BlockState :=
  let round :=
    if (s.tracker.req r).waitingFor = none then some (waitSerialisingRequests r s.tracker)
    else if s.tracker.blocked r then none
    else some (goOn r s.tracker)
  round.map fun (tracker, returned) =>
    if returned then next { s with tracker := tracker, running := some r }
    else ({ s with tracker := tracker }.setPc r waiting).yield

/-- The driver is asked for the `align` bytes from an aligned offset on. -/
def startRead (pc : List DiskByte → List ℕ → BlockPc) (r : ℕ) (s : BlockState) : BlockState :=
  (s.setPc r (pc (List.replicate align 0) (List.range align))).yield

/-- The head is prepended to the vector. -/
def addHead (r : ℕ) (buf : List DiskByte) (s : BlockState) : BlockState :=
  let co := s.co r
  match co.qiov with
  | none => s.abort .nullQiov
  | some qiov =>
    { s.setCo r { co with
        localQiov := some (buf.take (co.offset % align) ++ qiov)
        bytes := (co.bytes + co.offset % align) % 2 ^ 32
        offset := alignDown co.offset align
        pc := .tail } with running := some r }

/-- The tail is appended to the vector, a local copy of it if there is none yet. -/
def addTail (r : ℕ) (buf : List DiskByte) (s : BlockState) : BlockState :=
  let co := s.co r
  match co.localQiov <|> co.qiov with
  | none => s.abort .nullQiov
  | some qiov =>
    { s.setCo r { co with
        localQiov := some (qiov ++ buf.drop ((co.offset + co.bytes) % align))
        bytes := roundUp co.bytes align % 2 ^ 32
        pc := .writeWait false } with running := some r }

/-- The bytes of a write that the driver is asked for, as indices from its offset. -/
def BlockCo.writeBytes (co : BlockCo) : List ℕ :=
  if co.qiov = none then
    (bdrvCoDoWriteZeroes bl (co.offset / bdrvSectorSize) (co.bytes / bdrvSectorSize)).flatMap
      fun sector => List.range' (sector * bdrvSectorSize - co.offset) bdrvSectorSize
  else List.range (co.bytes / bdrvSectorSize * bdrvSectorSize)

/-- The byte that goes to an index. -/
def BlockCo.byteAt (co : BlockCo) (i : ℕ) : DiskByte :=
  match co.localQiov <|> co.qiov with
  | some qiov => qiov.getD i 0
  | none => 0

/-- `bdrv_aligned_pwritev` after its wait. -/
def bdrvAlignedPwritev (r : ℕ) (waited : Bool) (s : BlockState) : BlockState :=
  let co := s.co r
  let req := s.tracker.req r
  if waited && req.serialising then s.abort .serialisingWaited
  else if ¬(req.overlapOffset ≤ co.offset ∧
      co.offset + co.bytes ≤ req.overlapOffset + req.overlapBytes) then s.abort .outsideOverlap
  else (s.setPc r (.write (co.writeBytes bl))).yield

/-- `tracked_request_end` and the result. -/
def finishRequest (r : ℕ) (ok : Bool) (s : BlockState) : BlockState :=
  { (s.setPc r (.done ok)).yield with tracker := trackedRequestEnd r s.tracker }

/-- The coroutine of the request goes on. -/
def runRequest (r : ℕ) (s : BlockState) : Option BlockState :=
  let co := s.co r
  match co.pc with
  | .head =>
    if co.offset % align ≠ 0 then
      some { s.setPc r .headWait with tracker := markRequestSerialising r align s.tracker }
    else some (s.setPc r .tail)
  | .headWait => bdrvWait r .headWait (fun s => s.setPc r .headReadWait) s
  | .headReadWait => bdrvWait r .headReadWait (startRead align .headRead r) s
  | .headRead buf [] => some (addHead align r buf s)
  | .tail =>
    if (co.offset + co.bytes) % align ≠ 0 then
      some { s.setPc r (.tailWait false) with
        tracker := markRequestSerialising r align s.tracker }
    else some (s.setPc r (.writeWait false))
  | .tailWait waited =>
    bdrvWait r (.tailWait true) (fun s =>
      if waited && co.localQiov.isSome then s.abort .tailWaited
      else s.setPc r .tailReadWait) s
  | .tailReadWait => bdrvWait r .tailReadWait (startRead align .tailRead r) s
  | .tailRead buf [] => some (addTail align r buf s)
  | .writeWait waited => bdrvWait r (.writeWait true) (bdrvAlignedPwritev bl r waited) s
  | .write [] => some (finishRequest r true s)
  | .readWait => bdrvWait r .readWait (fun s => (s.setPc r .read).yield) s
  | .read => some (finishRequest r true s)
  | _ => none

/-- The driver reads the byte with index `i`. -/
def fetchByte (r i : ℕ) (s : BlockState) : Option BlockState :=
  let co := s.co r
  match co.pc with
  | .headRead buf left =>
    if i ∈ left then
      some (s.setPc r (.headRead (buf.set i (s.device (alignDown co.offset align + i)))
        (left.erase i)))
    else none
  | .tailRead buf left =>
    if i ∈ left then
      some (s.setPc r (.tailRead
        (buf.set i (s.device (alignDown (co.offset + co.bytes) align + i))) (left.erase i)))
    else none
  | _ => none

/-- The driver writes the byte with index `i`. -/
def applyByte (r i : ℕ) (s : BlockState) : Option BlockState :=
  let co := s.co r
  match co.pc with
  | .write left =>
    if i ∈ left then
      some { s.setPc r (.write (left.erase i)) with
        device := Function.update s.device (co.offset + i) (co.byteAt i) }
    else none
  | _ => none

/-- The driver reports an error. -/
def failRequest (r : ℕ) (s : BlockState) : Option BlockState :=
  match (s.co r).pc with
  | .headRead _ _ | .tailRead _ _ | .write _ | .read => some (finishRequest r false s)
  | _ => none

end Program

/-! ## Runs -/

inductive BlockOp where
  | pwritev (r offset bytes : ℕ) (qiov : Option (List DiskByte))
  | preadv (r offset bytes : ℕ) (copyOnRead : Option ℕ)
  | run (r : ℕ)
  | fetch (r i : ℕ)
  | apply (r i : ℕ)
  | fail (r : ℕ)

def BlockPc.isIdle : BlockPc → Bool
  | .idle => true
  | _ => false

/-- Coroutines start and go on only when no other one runs; the driver works at any time. -/
def blockStep (align : ℕ) (bl : BlockLimits) (op : BlockOp) (s : BlockState) : Option BlockState :=
  if s.aborted.isSome then none
  else match op with
    | .pwritev r offset bytes qiov =>
      if s.running = none ∧ (s.co r).pc.isIdle then
        some (bdrvCoDoPwritev r offset bytes qiov s)
      else none
    | .preadv r offset bytes copyOnRead =>
      if s.running = none ∧ (s.co r).pc.isIdle then
        some (bdrvCoDoPreadv align r offset bytes copyOnRead s)
      else none
    | .run r => if s.running = none ∨ s.running = some r then runRequest align bl r s else none
    | .fetch r i => fetchByte align r i s
    | .apply r i => applyByte r i s
    | .fail r => if s.running = none then failRequest r s else none

end QemuArm
