import QemuArm.Bytes

/-!
# The VHDX log

`vhdx_log_write` cuts data into sectors of 4096 bytes, merges the ends with the file, and
writes them with their descriptors as one entry into a circular buffer in the file.
`vhdx_log_flush` reads the entry back and writes its sectors to the file, `vhdx_parse_log`
finds the entry first. The host is little-endian, no request fails, and the two headers are
kept apart from the bytes of the file : of them only the GUID of the log matters here.
-/

namespace QemuArm

/-- An error code, a read outside of a buffer, or a loop that does not end. -/
inductive LogFault where
  | einval
  | enotsup
  | eperm
  | efault
  | outOfBounds
  | endless
  deriving DecidableEq

/-- `bs->file`. It reads as zeroes beyond its end. -/
structure VhdxFile where
  bytes : Bytes
  len : ℕ

variable (f : VhdxFile) (off : ℕ) (src : Bytes) (n : ℕ)

def VhdxFile.pwrite : VhdxFile :=
  ⟨memcpy f.bytes off src n, max f.len (off + n)⟩

@[simp] theorem VhdxFile.pwrite_bytes : (f.pwrite off src n).bytes = memcpy f.bytes off src n := rfl

@[simp] theorem VhdxFile.pwrite_len : (f.pwrite off src n).len = max f.len (off + n) := rfl

/-- `VHDXLogEntries`, with positions in bytes. -/
structure VhdxLog where
  offset : ℕ
  length : ℕ
  read : ℕ
  write : ℕ
  sequence : BitVec 64
  tail : ℕ

structure VhdxState where
  file : VhdxFile
  /-- `log_guid` of the current header -/
  guid : BitVec 128
  /-- `log_version` of the current header -/
  version : ℕ
  log : VhdxLog

/-! ## Records -/

structure LogEntryHeader where
  signature : ℕ
  checksum : ℕ
  entryLength : ℕ
  tail : ℕ
  sequenceNumber : ℕ
  descriptorCount : ℕ
  logGuid : ℕ
  flushedFileOffset : ℕ
  lastFileOffset : ℕ

def LogEntryHeader.fields (h : LogEntryHeader) : List (ℕ × ℕ) :=
  [(4, h.signature), (4, h.checksum), (4, h.entryLength), (4, h.tail), (8, h.sequenceNumber),
    (4, h.descriptorCount), (4, 0), (16, h.logGuid), (8, h.flushedFileOffset),
    (8, h.lastFileOffset)]

def LogEntryHeader.get (b : Bytes) : LogEntryHeader where
  signature := getLe (b.drop 0) 4
  checksum := getLe (b.drop 4) 4
  entryLength := getLe (b.drop 8) 4
  tail := getLe (b.drop 12) 4
  sequenceNumber := getLe (b.drop 16) 8
  descriptorCount := getLe (b.drop 24) 4
  logGuid := getLe (b.drop 32) 16
  flushedFileOffset := getLe (b.drop 48) 8
  lastFileOffset := getLe (b.drop 56) 8

structure LogDescriptor where
  signature : ℕ
  trailingBytes : ℕ
  /-- also `zero_length` -/
  leadingBytes : ℕ
  fileOffset : ℕ
  sequenceNumber : ℕ

def LogDescriptor.fields (d : LogDescriptor) : List (ℕ × ℕ) :=
  [(4, d.signature), (4, d.trailingBytes), (8, d.leadingBytes), (8, d.fileOffset),
    (8, d.sequenceNumber)]

def LogDescriptor.get (b : Bytes) : LogDescriptor where
  signature := getLe (b.drop 0) 4
  trailingBytes := getLe (b.drop 4) 4
  leadingBytes := getLe (b.drop 8) 8
  fileOffset := getLe (b.drop 16) 8
  sequenceNumber := getLe (b.drop 24) 8

/-- `desc[i]` of a buffer that starts with the header. -/
def descAt (b : Bytes) (i : ℕ) : LogDescriptor := LogDescriptor.get (b.drop (64 + 32 * i))

def logeSignature : ℕ := 0x65676f6c

def descSignature : ℕ := 0x63736564

def zeroSignature : ℕ := 0x6f72657a

def dataSignature : ℕ := 0x61746164

/-- `VHDXLogDataSector` : the first 8 bytes and the last 4 of the raw sector are in the
descriptor. -/
def dataSector (seq : ℕ) (raw : Bytes) : Bytes := fun i =>
  if i < 4 then leBytes dataSignature i
  else if i < 8 then leBytes (seq / 2 ^ 32) (i - 4)
  else if i < 4092 then raw i
  else leBytes seq (i - 4092)

/-! ## Checksums -/

section Checksum

variable (crc32cTable : BitVec 8 → BitVec 32)

/-- The loop of `crc32c` over `n` bytes. -/
def crc32cLoop : BitVec 32 → Bytes → ℕ → BitVec 32
  | crc, _, 0 => crc
  | crc, b, n + 1 =>
    crc32cLoop (crc32cTable (crc.setWidth 8 ^^^ b 0) ^^^ (crc >>> 8)) (b.drop 1) n

def crc32c (crc : BitVec 32) (b : Bytes) (n : ℕ) : BitVec 32 :=
  crc32cLoop crc32cTable crc b n ^^^ 0xffffffff

/-- The buffer with its checksum as zero. -/
def clearChecksum (b : Bytes) : Bytes := memcpy b 4 (fun _ => 0) 4

def vhdxUpdateChecksum (b : Bytes) (size : ℕ) : Bytes :=
  memcpy (clearChecksum b) 4
    (leBytes (crc32c crc32cTable 0xffffffff (clearChecksum b) size).toNat) 4

end Checksum

/-! ## The circular buffer -/

def vhdxLogIncIdx (idx length : ℕ) : ℕ := if length ≤ idx + 4096 then 0 else idx + 4096

def vhdxLogPeekHdr (f : VhdxFile) (log : VhdxLog) : Except LogFault LogEntryHeader :=
  if log.read % 4096 ≠ 0 then .error .efault
  else
    let read := if log.length < log.read + 64 then 0 else log.read
    if read = log.write then .error .einval
    else .ok (LogEntryHeader.get (f.bytes.drop (log.offset + read)))

/-- The loop of `vhdx_log_read_sectors` : the number of sectors read, the position after them
and the buffer. The buffer is not moved on between two sectors. -/
def readSectorsLoop (f : VhdxFile) (log : VhdxLog) : ℕ → ℕ → ℕ → Bytes → ℕ × ℕ × Bytes
  | 0, n, read, buf => (n, read, buf)
  | m + 1, n, read, buf =>
    if read = log.write then (n, read, buf)
    else
      readSectorsLoop f log m (n + 1) (vhdxLogIncIdx read log.length)
        (memcpy buf 0 (f.bytes.drop (log.offset + read)) 4096)

/-- `vhdx_log_read_sectors`, where `peek` is false. -/
def vhdxLogReadSectors (f : VhdxFile) (log : VhdxLog) (m : ℕ) (buf : Bytes) : ℕ × VhdxLog × Bytes :=
  let r := readSectorsLoop f log m 0 log.read buf
  (r.1, { log with read := r.2.1 }, r.2.2)

/-- The loop of `vhdx_log_write_sectors` : the number of sectors written, the position after
them and the file. -/
def writeSectorsLoop (log : VhdxLog) : ℕ → ℕ → ℕ → VhdxFile → Bytes → ℕ × ℕ × VhdxFile
  | 0, n, write, f, _ => (n, write, f)
  | m + 1, n, write, f, buf =>
    let next := vhdxLogIncIdx write log.length
    if next = log.read then (n, write, f)
    else
      writeSectorsLoop log m (n + 1) next (f.pwrite (log.offset + write) buf 4096) (buf.drop 4096)

/-! ## Validation -/

def vhdxLogHdrIsValid (log : VhdxLog) (hdr : LogEntryHeader) (guid : BitVec 128) : Bool :=
  decide (hdr.signature = logeSignature ∧ hdr.entryLength ≤ log.length ∧
    hdr.entryLength % 4096 = 0 ∧ hdr.sequenceNumber ≠ 0 ∧ hdr.logGuid = guid.toNat ∧
    hdr.descriptorCount * 32 ≤ hdr.entryLength)

def vhdxLogDescIsValid (desc : LogDescriptor) (hdr : LogEntryHeader) : Bool :=
  decide (desc.sequenceNumber = hdr.sequenceNumber ∧ desc.fileOffset % 4096 = 0 ∧
    (desc.signature = zeroSignature ∧ desc.leadingBytes % 4096 = 0 ∨
      desc.signature = descSignature))

def vhdxComputeDescSectors (count : ℕ) : ℕ :=
  (count + 2) / 128 + if (count + 2) % 128 ≠ 0 then 1 else 0

/-- `vhdx_log_read_desc`, with what is in the buffer at first. -/
def vhdxLogReadDesc (junk : Bytes) (s : VhdxState) (log : VhdxLog) :
    Except LogFault (VhdxLog × Bytes) := do
  let hdr ← vhdxLogPeekHdr s.file log
  if vhdxLogHdrIsValid log hdr s.guid = false then .error .einval
  else
    let m := vhdxComputeDescSectors hdr.descriptorCount
    let r := vhdxLogReadSectors s.file log m junk
    if r.1 ≠ m then .error .einval
    else if (List.range hdr.descriptorCount).all fun i => vhdxLogDescIsValid (descAt r.2.2 i) hdr
    then .ok r.2
    else .error .einval

/-! ## Flushing -/

/-- `vhdx_log_flush_desc`. Of the last case there is none after `vhdx_log_read_desc`. -/
def vhdxLogFlushDesc (f : VhdxFile) (desc : LogDescriptor) (data junk : Bytes) :
    Except LogFault VhdxFile :=
  if desc.signature = descSignature then
    if getLe (data.drop 4) 4 * 2 ^ 32 + getLe (data.drop 4092) 4 ≠ desc.sequenceNumber then
      .error .einval
    else
      let buffer := memcpy junk 0 (leBytes desc.leadingBytes) 8
      let buffer := memcpy buffer 8 (data.drop 8) 4084
      let buffer := memcpy buffer 4092 (leBytes desc.trailingBytes) 4
      .ok (f.pwrite desc.fileOffset buffer 4096)
  else if desc.signature = zeroSignature then
    .ok (f.pwrite desc.fileOffset (fun _ => 0) (4096 * (desc.leadingBytes / 4096)))
  else .ok (f.pwrite desc.fileOffset junk 4096)

/-- The loop over the descriptors of an entry. -/
def flushDescs (junk descEntries : Bytes) :
    ℕ → ℕ → VhdxFile → VhdxLog → Bytes → Except LogFault (VhdxFile × VhdxLog)
  | 0, _, f, log, _ => .ok (f, log)
  | m + 1, i, f, log, data =>
    if (descAt descEntries i).signature = descSignature then
      let r := vhdxLogReadSectors f log 1 data
      if r.1 ≠ 1 then .error .einval
      else do
        let f ← vhdxLogFlushDesc f (descAt descEntries i) r.2.2 junk
        flushDescs junk descEntries m (i + 1) f r.2.1 r.2.2
    else do
      let f ← vhdxLogFlushDesc f (descAt descEntries i) data junk
      flushDescs junk descEntries m (i + 1) f log data

/-- The file is made longer, if it ends before what the entry says and that is not a multiple
of 1 MiB. -/
def VhdxFile.extend (f : VhdxFile) (last : ℕ) : VhdxFile :=
  if f.len < last ∧ last % 2 ^ 20 ≠ 0 then { f with len := (last / 2 ^ 20 + 1) * 2 ^ 20 } else f

/-- One entry of `vhdx_log_flush`. -/
def flushEntry (junk : Bytes) (s : VhdxState) (log : VhdxLog) :
    Except LogFault (VhdxFile × VhdxLog) := do
  let hdr ← vhdxLogPeekHdr s.file log
  if s.file.len < hdr.flushedFileOffset then .error .einval
  else
    let (log, desc) ← vhdxLogReadDesc junk s log
    let (f, log) ← flushDescs junk desc (LogEntryHeader.get desc).descriptorCount 0 s.file log junk
    .ok (f.extend (LogEntryHeader.get desc).lastFileOffset, log)

def vhdxLogReset (s : VhdxState) : VhdxState :=
  { s with guid := 0, log := { s.log with read := 0, write := 0 } }

/-- `vhdx_log_flush` of `cnt` entries, with the position after them. -/
def vhdxLogFlush (heap : ℕ → Bytes) :
    ℕ → VhdxState → VhdxLog → Except LogFault (VhdxState × VhdxLog)
  | 0, s, log => .ok (vhdxLogReset s, log)
  | cnt + 1, s, log => do
    let (f, log) ← flushEntry (heap cnt) s log
    vhdxLogFlush heap cnt { s with file := f } log

/-! ## Finding the log -/

structure LogSequence where
  log : VhdxLog
  count : ℕ
  hdr : LogEntryHeader

section Search

variable (crc32cTable : BitVec 8 → BitVec 32)

/-- The data sectors of an entry, for the checksum. There is none if a sector is missing. -/
def checksumSectors (f : VhdxFile) : ℕ → VhdxLog → BitVec 32 → Bytes → VhdxLog × Option (BitVec 32)
  | 0, log, crc, _ => (log, some crc)
  | m + 1, log, crc, buf =>
    let r := vhdxLogReadSectors f log 1 buf
    if r.1 ≠ 1 then (r.2.1, none)
    else
      checksumSectors f m r.2.1 (crc32c crc32cTable crc r.2.2 4096 ^^^ 0xffffffff) r.2.2

/-- `vhdx_validate_log_entry`, with the header if the entry is valid. -/
def vhdxValidateLogEntry (junk : Bytes) (s : VhdxState) (log : VhdxLog) (seq : ℕ) :
    Except LogFault (VhdxLog × Option LogEntryHeader) := do
  let hdr ← vhdxLogPeekHdr s.file log
  if vhdxLogHdrIsValid log hdr s.guid = false ∨
      0 < seq ∧ hdr.sequenceNumber ≠ (seq + 1) % 2 ^ 64 then
    .ok ({ log with read := vhdxLogIncIdx log.read log.length }, none)
  else
    let m := vhdxComputeDescSectors hdr.descriptorCount
    let (log, desc) ← vhdxLogReadDesc junk s log
    let crc := crc32c crc32cTable 0xffffffff (clearChecksum desc) (m * 4096) ^^^ 0xffffffff
    let r := checksumSectors crc32cTable s.file (hdr.entryLength / 4096 - m) log crc junk
    let checksum := (LogEntryHeader.get desc).checksum
    .ok (r.1, if r.2.map (fun crc => (crc ^^^ 0xffffffff).toNat) = some checksum
      then some hdr else none)

/-- The entries that follow a first one. -/
def searchEntries (heap : ℕ → Bytes) (s : VhdxState) :
    ℕ → VhdxLog → ℕ → LogSequence → Except LogFault (VhdxLog × LogSequence)
  | 0, _, _, _ => .error .endless
  | fuel + 1, log, seq, current => do
    let (log, valid) ← vhdxValidateLogEntry crc32cTable (heap (fuel + 1)) s log seq
    match valid with
    | none => .ok (log, current)
    | some hdr =>
      searchEntries heap s fuel log hdr.sequenceNumber
        { current with
          log := { current.log with write := log.read }
          count := current.count + 1 }

/-- The loop of `vhdx_log_search` over the sectors of the log. -/
def searchLoop (heap : ℕ → ℕ → Bytes) (s : VhdxState) :
    ℕ → VhdxLog → Option LogSequence → Except LogFault (Option LogSequence)
  | 0, _, _ => .error .endless
  | fuel + 1, log, candidate => do
    let tail := log.read
    let (log, valid) ← vhdxValidateLogEntry crc32cTable (heap (fuel + 1) 0) s log 0
    match valid with
    | none =>
      if log.read < tail then .ok candidate else searchLoop heap s fuel log candidate
    | some hdr =>
      let first : LogSequence := ⟨{ log with read := tail, write := log.read }, 1, hdr⟩
      let (log, current) ←
        searchEntries crc32cTable (heap (fuel + 1)) s (log.length / 4096 + 1) log 0 first
      let candidate :=
        if candidate.all fun c => decide (c.hdr.sequenceNumber < current.hdr.sequenceNumber)
        then some current else candidate
      if log.read < tail then .ok candidate else searchLoop heap s fuel log candidate

/-- `vhdx_log_search`. Every round goes on by at least one sector, so that the loop ends within
two rounds over the log or never does. -/
def vhdxLogSearch (heap : ℕ → ℕ → Bytes) (s : VhdxState) : Except LogFault (Option LogSequence) :=
  searchLoop crc32cTable heap s (s.log.length / 4096 + 1)
    { s.log with read := 0, write := s.log.length } none

/-- `vhdx_parse_log`, with whether the log was flushed. -/
def vhdxParseLog (heap : ℕ → ℕ → Bytes) (readOnly : Bool) (s : VhdxState) :
    Except LogFault (VhdxState × Bool) :=
  if s.log.offset < 2 ^ 20 ∨ s.log.offset % 2 ^ 20 ≠ 0 then .error .einval
  else if s.version ≠ 0 then .error .einval
  else if s.guid = 0 ∨ s.log.length = 0 then .ok (s, false)
  else if s.log.length % 2 ^ 20 ≠ 0 then .error .einval
  else do
    match ← vhdxLogSearch crc32cTable heap s with
    | none => .ok (s, false)
    | some logs =>
      if readOnly then .error .eperm
      else
        let s := { s with
          log := { s.log with sequence := BitVec.ofNat 64 (logs.hdr.sequenceNumber + 1) } }
        let r ← vhdxLogFlush (heap 0) logs.count s logs.log
        .ok (r.1, true)

end Search

/-! ## Writing -/

section Write

variable (length offset : ℕ)

def leadingLength : ℕ :=
  if offset % 4096 = 0 then 0
  else if length < 4096 - offset % 4096 then length else 4096 - offset % 4096

def alignedLength : ℕ := length - leadingLength length offset

def trailingLength : ℕ := alignedLength length offset - alignedLength length offset / 4096 * 4096

/-- How many sectors the data takes. -/
def logSectors : ℕ :=
  alignedLength length offset / 4096 +
    ((if offset % 4096 = 0 then 0 else 1) + if trailingLength length offset = 0 then 0 else 1)

/-- The start of the first of them. -/
def logFileOffset : ℕ := offset / 4096 * 4096

/-- The contents of sector `i`, and how much of the data is in it. The end of the last sector
is read from its start. -/
def rawSector (f : VhdxFile) (data merged : Bytes) (i fileOffset pos : ℕ) :
    Except LogFault (Bytes × ℕ) :=
  let leading := leadingLength length offset
  let trailing := trailingLength length offset
  if i = 0 ∧ leading ≠ 0 then
    .ok (memcpy (memcpy merged 0 (f.bytes.drop fileOffset) 4096) (offset % 4096)
      (data.drop pos) leading, leading)
  else if i + 1 = logSectors length offset ∧ trailing ≠ 0 then
    .ok (memcpy (memcpy merged trailing (f.bytes.drop fileOffset) (4096 - trailing)) 0
      (data.drop pos) trailing, trailing)
  else if length < pos + 4096 then .error .outOfBounds
  else .ok (data.drop pos, 4096)

/-- What `vhdx_log_raw_to_le_sector` puts into the descriptor. -/
@[simp] def rawDescriptor (seq fileOffset : ℕ) (raw : Bytes) : LogDescriptor where
  signature := descSignature
  trailingBytes := getLe (raw.drop 4092) 4
  leadingBytes := getLe raw 8
  fileOffset := fileOffset
  sequenceNumber := seq

/-- The loop of `vhdx_log_write` over the sectors from `i` on. `first` is the offset of the
data sectors in the buffer. -/
def logWriteLoop (f : VhdxFile) (data merged : Bytes) (seq first : ℕ) :
    ℕ → ℕ → ℕ → ℕ → Bytes → Except LogFault Bytes
  | 0, _, _, _, buffer => .ok buffer
  | m + 1, i, fileOffset, pos, buffer => do
    let (raw, n) ← rawSector length offset f data merged i fileOffset pos
    let buffer := memcpy buffer (64 + 32 * i) (pack (rawDescriptor seq fileOffset raw).fields) 32
    let buffer := memcpy buffer (first + 4096 * i) (dataSector seq raw) 4096
    logWriteLoop f data merged seq first m (i + 1) (fileOffset + 4096) (pos + n) buffer

/-- `vhdx_log_write`, with the new GUID and what is in the allocated buffers at first. -/
def vhdxLogWrite (crc32cTable : BitVec 8 → BitVec 32) (guid : BitVec 128)
    (junk merged data : Bytes) (s : VhdxState) : Except LogFault VhdxState := do
  if s.log.length < length then .error .einval
  else if s.guid ≠ 0 then .error .enotsup
  else
    let seq := if s.log.sequence = 0 then 1 else s.log.sequence
    let sectors := logSectors length offset
    let desc := vhdxComputeDescSectors sectors
    -- the size is an `uint32_t`
    if 2 ^ 32 ≤ (desc + sectors) * 4096 then .error .outOfBounds
    else
      let hdr : LogEntryHeader :=
        { signature := logeSignature
          checksum := 0
          entryLength := (desc + sectors) * 4096
          tail := s.log.tail
          sequenceNumber := seq.toNat
          descriptorCount := sectors
          logGuid := guid.toNat
          flushedFileOffset := s.file.len
          lastFileOffset := s.file.len }
      let buffer ← logWriteLoop length offset s.file data merged seq.toNat (desc * 4096) sectors 0
        (logFileOffset offset) 0 (memcpy junk 0 (pack hdr.fields) 64)
      let buffer := vhdxUpdateChecksum crc32cTable buffer ((desc + sectors) * 4096)
      let r := writeSectorsLoop s.log (desc + sectors) 0 s.log.write s.file buffer
      if r.1 ≠ desc + sectors then .error .einval
      else
        .ok { s with
          file := r.2.2
          guid := guid
          log := { s.log with write := r.2.1, sequence := seq + 1, tail := r.2.1 } }

/-- `vhdx_log_write_and_flush`. -/
def vhdxLogWriteAndFlush (crc32cTable : BitVec 8 → BitVec 32) (guid : BitVec 128)
    (heap : ℕ → Bytes) (junk merged data : Bytes) (s : VhdxState) :
    Except LogFault VhdxState := do
  let s ← vhdxLogWrite length offset crc32cTable guid junk merged data s
  let (s, log) ← vhdxLogFlush heap 1 s s.log
  .ok { s with log := log }

end Write

end QemuArm
