import QemuArm.VhdxLogSearch

/-!
# Crash safety of the VHDX log

`vhdxCrashSafe_iff` : from an idle log, with an entry that fits, a log write and its replay
after a crash, as well as a log write that is flushed at once, replace the data in the file and
nothing else, exactly if the write is `LogExact`. It is not if there are more than 126 sectors,
if the end of the last sector does not repeat its start, or for no data in the middle of a
sector. `vhdxCrashSafe_fail` has an input for the first two.
-/

namespace QemuArm

section Crash

variable (crc32cTable : BitVec 8 → BitVec 32) (length offset : ℕ) (guid : BitVec 128)
  (data : Bytes) (s : VhdxState)

/-- The new GUID is not zero, and no sector of the log has it where a header would. -/
structure FreshGuid : Prop where
  ne_zero : guid ≠ 0
  fresh : ∀ q < s.log.length / 4096,
    getLe (s.file.bytes.drop (s.log.offset + 4096 * q + 32)) 16 ≠ guid.toNat

/-- The file after a crash, with the sectors of the data in any state. -/
structure Torn (s₁ : VhdxState) (f : VhdxFile) : Prop where
  bytes : ∀ a, a < logFileOffset offset ∨
    logFileOffset offset + 4096 * logSectors length offset ≤ a → f.bytes a = s₁.file.bytes a
  len_ge : s₁.file.len ≤ f.len
  len_le : f.len ≤ 2 ^ 63

/-- The image is opened again. -/
def reopened (s₁ : VhdxState) (f : VhdxFile) : VhdxState :=
  { s₁ with
    file := f
    log := { s₁.log with read := 0, write := 0, sequence := 0, tail := 0 } }

/-- Outside of the log, exactly the data is replaced. -/
def Replaced (s₂ : VhdxState) : Prop :=
  ∀ a, a < s.log.offset ∨ s.log.offset + s.log.length ≤ a → s₂.file.bytes a =
    if offset ≤ a ∧ a < offset + length then data (a - offset) else s.file.bytes a

def VhdxCrashSafe : Prop :=
  ∀ (junk merged : Bytes) (heap : ℕ → ℕ → Bytes),
    (∃ s₁, vhdxLogWrite length offset crc32cTable guid junk merged data s = .ok s₁ ∧
      ∀ f, Torn length offset s₁ f →
        ∃ s₂, vhdxParseLog crc32cTable heap false (reopened s₁ f) = .ok (s₂, true) ∧
          LogIdle s₂ ∧ Replaced length offset data s s₂) ∧
    ∃ s₂, vhdxLogWriteAndFlush length offset crc32cTable guid (heap 0) junk merged data s = .ok s₂ ∧
      LogIdle s₂ ∧ Replaced length offset data s s₂

def LogExact : Prop :=
  (offset % 4096 = 0 ∨ 0 < length) ∧ logSectors length offset ≤ 126 ∧
  ∀ a, offset + length ≤ a → a < logFileOffset offset + 4096 * logSectors length offset →
    s.file.bytes (a - trailingLength length offset) = s.file.bytes a

/-- The sectors of the data hold what was logged, and the rest outside of the log is as it
was. -/
def SectorsLogged (s₂ : VhdxState) : Prop :=
  ∀ a, a < s.log.offset ∨ s.log.offset + s.log.length ≤ a → s₂.file.bytes a =
    if logFileOffset offset ≤ a ∧ a < logFileOffset offset + 4096 * logSectors length offset
    then logged length offset s.file.bytes data a else s.file.bytes a

/-- One sector of descriptors is enough, and the entry and the data have their place. -/
structure Loggable : Prop where
  idle : LogIdle s
  outside : offset + length ≤ s.log.offset ∨ s.log.offset + s.log.length ≤ offset
  room : entrySectors length offset < s.log.length / 4096
  below : offset + length ≤ 2 ^ 63
  aligned : offset % 4096 = 0 ∨ 0 < length
  short : logSectors length offset ≤ 126

variable {crc32cTable length offset guid data s} {s₂ : VhdxState}

/-- The sectors of the data are not in the log either. -/
theorem Loggable.sectors_outside (h : Loggable length offset s) :
    logFileOffset offset + 4096 * logSectors length offset ≤ s.log.offset ∨
      s.log.offset + s.log.length ≤ logFileOffset offset := by
  have hlt := logSectors_le h.aligned
  have hfo := logFileOffset_add offset
  have hoff := h.idle.placed.offset_mod
  have hlen := h.idle.placed.length_mod
  have hout := h.outside
  omega

theorem SectorsLogged.replaced_iff (hlog : SectorsLogged length offset data s s₂)
    (h : Loggable length offset s) :
    Replaced length offset data s s₂ ↔
      ∀ a, offset + length ≤ a → a < logFileOffset offset + 4096 * logSectors length offset →
        s.file.bytes (a - trailingLength length offset) = s.file.bytes a := by
  have hcover := le_logSectors h.aligned
  have hfo := logFileOffset_add offset
  have hsec := h.sectors_outside
  constructor
  · intro hrep a hge hlt
    have ha := hlog a (by omega)
    rw [if_pos (by omega), logged, if_neg (by omega), if_neg (by omega)] at ha
    rw [← ha, hrep a (by omega), if_neg (by omega)]
  · intro htail a ha
    rw [hlog a ha]
    by_cases hrange : offset ≤ a ∧ a < offset + length
    · rw [if_pos (by omega), logged, if_pos hrange, if_pos hrange]
    · split_ifs with hsect
      · rw [logged]
        split_ifs with hlt
        · rfl
        · exact htail a (by omega) hsect.2
      · rfl

end Crash

/-! ## Flushing at once -/

section Flush

variable {crc32cTable : BitVec 8 → BitVec 32} {length offset : ℕ} {guid : BitVec 128}
  {junk merged data : Bytes} {s s₁ : VhdxState} {b : Bytes} {seq : ℕ}

section

variable (hw : LogWritten crc32cTable length offset guid data s s₁ b seq)
include hw

theorem LogWritten.placed (hp : s.log.Placed) :
    s₁.log.Placed := hp.congr hw.log_offset hw.log_length

theorem LogWritten.slot (q : ℕ) : logSlot s₁.log q = logSlot s.log q := by
  rw [logSlot, logSlot, hw.log_length]

end

theorem IsEntry.seq_lt {k len fo raw}
    (he : IsEntry crc32cTable b k seq guid len fo raw) : seq < 2 ^ 64 := by
  rw [← he.sequenceNumber]
  exact getLe_lt 8 _

theorem LogWritten.frame_outside (hw : LogWritten crc32cTable length offset guid data s s₁ b seq)
    (hp : s.log.Placed) {a} (ha : a < s.log.offset ∨ s.log.offset + s.log.length ≤ a) :
    s₁.file.bytes a = s.file.bytes a :=
  hw.frame a fun i _ => by
    have := @logSlot_le s.log (s.log.write / 4096 + i) hp
    omega

theorem entrySectors_eq (hk : logSectors length offset ≤ 126) :
    entrySectors length offset = 1 + logSectors length offset := by
  rw [entrySectors, vhdxComputeDescSectors_one hk]

theorem logFileOffset_mod : logFileOffset offset % 4096 = 0 := Nat.mul_mod_left _ _

/-- The entry is still there when only the sectors of the data differ. -/
theorem LogWritten.entryAt_of (hw : LogWritten crc32cTable length offset guid data s s₁ b seq)
    (h : Loggable length offset s) {f : VhdxFile} {log : VhdxLog}
    (hbytes : ∀ a, a < logFileOffset offset ∨
      logFileOffset offset + 4096 * logSectors length offset ≤ a → f.bytes a = s₁.file.bytes a)
    (hoff : log.offset = s.log.offset) (hlength : log.length = s.log.length) :
    EntryAt f log (s.log.write / 4096) b (1 + logSectors length offset) := by
  intro j hj a ha
  have hsec := h.sectors_outside
  have hle := @logSlot_le s.log (s.log.write / 4096 + j) h.idle.placed
  rw [hoff, show logSlot log = logSlot s.log by funext q; rw [logSlot, logSlot, hlength],
    hbytes _ (by omega)]
  exact hw.entryAt j (by rwa [entrySectors_eq h.short]) a ha

/-- The entry in a file `f` is flushed, from the position `log`. -/
theorem LogWritten.flush (hw : LogWritten crc32cTable length offset guid data s s₁ b seq)
    (h : Loggable length offset s) (heap : ℕ → Bytes) {t log}
    (hguid : t.guid = guid) (hlen : s.file.len ≤ t.file.len)
    (hbytes : ∀ a, a < logFileOffset offset ∨
      logFileOffset offset + 4096 * logSectors length offset ≤ a → t.file.bytes a = s₁.file.bytes a)
    (hoff : log.offset = s.log.offset) (hlength : log.length = s.log.length)
    (hread : log.read = logSlot s.log (s.log.write / 4096))
    (hwrite : log.write = logSlot s.log (s.log.write / 4096 + (1 + logSectors length offset))) :
    ∃ f', vhdxLogFlush heap 1 t log =
        .ok (vhdxLogReset { t with file := f' }, { log with read := log.write }) ∧
      f'.len ≤ max t.file.len (logFileOffset offset + 4096 * logSectors length offset) ∧
      ∀ a, a < s.log.offset ∨ s.log.offset + s.log.length ≤ a → f'.bytes a =
        if logFileOffset offset ≤ a ∧ a < logFileOffset offset + 4096 * logSectors length offset
        then logged length offset s.file.bytes data a else s.file.bytes a := by
  have hsec := h.sectors_outside
  have htotal := entrySectors_eq h.short
  have hfit := h.room
  have hp := h.idle.placed
  have hslot : ∀ q, logSlot log q = logSlot s.log q := fun q => by rw [logSlot, logSlot, hlength]
  have hat := hw.entryAt_of h hbytes hoff hlength
  have hentry := hw.entry
  rw [← hguid] at hentry
  obtain ⟨f', hrun, hlen', hf'⟩ := @flushEntry_spec crc32cTable log t b _ (heap 0) _ _ seq _ _
    (hp.congr hoff hlength) hentry hw.seq_ne hw.entry.seq_lt logFileOffset_mod h.short hat
    (hread.trans (hslot _).symm) (fun j hj => by
      rw [hslot, hwrite]
      exact logSlot_ne (by omega) (by omega))
    (by rw [hoff, hlength]; exact hsec) hlen
  refine ⟨f', ?_, hlen', fun a ha => ?_⟩
  · rw [vhdxLogFlush, hrun]
    simp only [bind, Except.bind]
    rw [vhdxLogFlush, add_assoc, hslot, ← hwrite]
  · rw [hf' a]
    split_ifs with hdest
    · rw [Bytes.drop_apply]
      exact congrArg _ (by omega)
    · rw [hbytes a (by omega), hw.frame_outside hp ha]

theorem vhdxLogWriteAndFlush_spec (h : Loggable length offset s) (heap : ℕ → Bytes) :
    ∃ s₂, vhdxLogWriteAndFlush length offset crc32cTable guid heap junk merged data s = .ok s₂ ∧
      LogIdle s₂ ∧ SectorsLogged length offset data s s₂ := by
  obtain ⟨s₁, b, seq, hrun, hw⟩ := @vhdxLogWrite_spec crc32cTable length offset guid junk merged
    data s h.idle h.aligned h.room h.below
  obtain ⟨f', hflush, hlen, hbytes⟩ := hw.flush h heap hw.guid_eq hw.len_ge
    (fun _ _ => rfl) hw.log_offset hw.log_length hw.log_read
    (by rw [hw.log_write, entrySectors_eq h.short])
  have hend := logSectors_le h.aligned
  have hoff := h.below
  have hfo := @logFileOffset_mod offset
  refine ⟨{ vhdxLogReset { s₁ with file := f' } with
      log := { s₁.log with read := s₁.log.write } }, ?_, ?_, hbytes⟩
  · rw [vhdxLogWriteAndFlush, hrun]
    simp only [bind, Except.bind]
    rw [hflush]
  · have hle := @logSlot_le s.log (s.log.write / 4096 + entrySectors length offset) h.idle.placed
    refine ⟨(hw.placed h.idle.placed).congr rfl rfl, hw.version.trans h.idle.version, rfl, rfl,
      ?_, ?_, ?_⟩
    · exact hw.log_write ▸ logSlot_mod
    · rw [hw.log_write, hw.log_length]
      omega
    · have hold := h.idle.len_le
      have hlog := h.idle.placed.end_le
      have hlen₁ := hw.len_le
      dsimp only [vhdxLogReset]
      omega

/-- With more than 126 sectors the entry is not flushed, if the buffer happens to hold zeroes. -/
theorem vhdxLogWriteAndFlush_long (hidle : LogIdle s) (h : offset % 4096 = 0 ∨ 0 < length)
    (hfit : entrySectors length offset < s.log.length / 4096) (hoff : offset + length ≤ 2 ^ 63)
    (hk : 126 < logSectors length offset) :
    vhdxLogWriteAndFlush length offset crc32cTable guid (fun _ _ => 0) junk merged data s =
      .error .einval := by
  obtain ⟨s₁, b, seq, hrun, hw⟩ := @vhdxLogWrite_spec crc32cTable length offset guid junk merged
    data s hidle h hfit hoff
  have hat : EntryAt s₁.file s₁.log (s.log.write / 4096) b (entrySectors length offset) := by
    intro j hj a ha
    rw [hw.log_offset, hw.slot]
    exact hw.entryAt j hj a ha
  have hentry := hw.entry
  rw [← hw.guid_eq] at hentry
  have hrefused := @flushEntry_long crc32cTable s₁.log s₁ b _ (s.log.write / 4096) _ seq _ _
    (hw.placed hidle.placed) hentry hw.seq_ne hk hat (by rw [hw.log_length]; exact hfit)
    (hw.log_read.trans (hw.slot _).symm)
    (fun j hj => by
      rw [hw.slot, hw.log_write]
      rw [entrySectors] at hfit ⊢
      exact logSlot_ne (by omega) (by omega))
    hw.len_ge
  rw [vhdxLogWriteAndFlush, hrun]
  simp only [bind, Except.bind]
  rw [vhdxLogFlush, hrefused]
  rfl

/-- No data in the middle of a sector : the code reads a sector of it. -/
theorem vhdxLogWrite_empty (hidle : LogIdle s) (hmid : offset % 4096 ≠ 0) :
    vhdxLogWrite 0 offset crc32cTable guid junk merged data s = .error .outOfBounds := by
  have hlead : leadingLength 0 offset = 0 := by
    rw [leadingLength, if_neg hmid, if_pos (by omega)]
  have htrail : trailingLength 0 offset = 0 := by
    rw [trailingLength, alignedLength, hlead]
  have hsec : logSectors 0 offset = 1 := by
    rw [logSectors, htrail, alignedLength, hlead, if_neg hmid, if_pos rfl]
  rw [vhdxLogWrite, if_neg (Nat.not_lt_zero _), if_neg (not_not.mpr hidle.guid), hsec]
  dsimp only
  rw [logWriteLoop, rawSector, hlead, htrail]
  simp only [ne_eq, not_true_eq_false, and_false, if_false]
  rfl

end Flush

/-! ## Replaying after a crash -/

section Replay

variable {crc32cTable : BitVec 8 → BitVec 32} {length offset : ℕ} {guid : BitVec 128}
  {data : Bytes} {s s₁ : VhdxState} {b : Bytes} {seq : ℕ} {f : VhdxFile}

section

variable (hw : LogWritten crc32cTable length offset guid data s s₁ b seq)
  (h : Loggable length offset s) (hfresh : FreshGuid guid s) (hf : Torn length offset s₁ f)
include hw h hfresh hf

/-- Only the first sector of the entry passes as the start of one. -/
theorem LogWritten.noEntryAt (q : ℕ) (hq : q % (s.log.length / 4096) ≠ s.log.write / 4096) :
    NoEntryAt (reopened s₁ f) (reopened s₁ f).log q := by
  have hsec := h.sectors_outside
  have hk := h.short
  have hslot : logSlot (reopened s₁ f).log q = logSlot s.log q := hw.slot q
  have hoffset : (reopened s₁ f).log.offset = s.log.offset := hw.log_offset
  have hle := @logSlot_le s.log q h.idle.placed
  have hbytes : ∀ a < 4096, f.bytes (s.log.offset + logSlot s.log q + a) =
      s₁.file.bytes (s.log.offset + logSlot s.log q + a) := fun a ha => hf.bytes _ (by omega)
  rw [NoEntryAt, hslot, hoffset, vhdxLogHdrIsValid, decide_eq_false_iff_not]
  rintro ⟨hsig, -, -, -, hguid, -⟩
  by_cases hin : ∃ j < entrySectors length offset,
      logSlot s.log (s.log.write / 4096 + j) = logSlot s.log q
  · -- a data sector has another signature
    obtain ⟨j, hj, heq⟩ := hin
    rw [entrySectors_eq hk] at hj
    cases j with
    | zero =>
      rw [add_zero, ← h.idle.write_eq, logSlot] at heq
      omega
    | succ i =>
      have hdata : getLe ((f.bytes.drop (s.log.offset + logSlot s.log q)).drop 0) 4 =
          dataSignature := by
        refine getLe_eq_of_leBytes (x := dataSignature) fun a ha => ?_
        have hmem := hw.entryAt (i + 1) (by rw [entrySectors_eq hk]; omega) a (by omega)
        have hsector := hw.entry.data i (by omega) a (by omega)
        rw [vhdxComputeDescSectors_one hk] at hsector
        rw [Bytes.drop_apply, Bytes.drop_apply, zero_add, hbytes a (by omega), ← heq, hmem,
          show 4096 * (i + 1) + a = 1 * 4096 + 4096 * i + a by ring, hsector, dataSector,
          if_pos ha]
      have hsig' : getLe ((f.bytes.drop (s.log.offset + logSlot s.log q)).drop 0) 4 =
          logeSignature := hsig
      exact absurd (hdata.symm.trans hsig') (by decide)
  · -- any other sector has an old GUID
    have hold :
        getLe (s.file.bytes.drop (s.log.offset + logSlot s.log q + 32)) 16 = guid.toNat := by
      have hguid' : getLe ((f.bytes.drop (s.log.offset + logSlot s.log q)).drop 32) 16 =
          guid.toNat := hguid.trans (congrArg BitVec.toNat hw.guid_eq)
      rw [← hguid', Bytes.drop_drop]
      refine getLe_congr fun a ha => ?_
      rw [Bytes.drop_apply, Bytes.drop_apply, add_assoc, hbytes _ (by omega),
        hw.frame _ fun i hi => ?_]
      by_contra hmem
      exact hin ⟨i, hi, logSlot_eq_of_mem (a := s.log.offset + logSlot s.log q + (32 + a))
        (by omega) (by omega) (by omega) (by omega)⟩
    exact hfresh.fresh _ (Nat.mod_lt q (by omega)) hold

/-- The log is replayed when the image is opened again. -/
theorem vhdxParseLog_spec (heap : ℕ → ℕ → Bytes) :
    ∃ s₂, vhdxParseLog crc32cTable heap false (reopened s₁ f) = .ok (s₂, true) ∧
      LogIdle s₂ ∧ SectorsLogged length offset data s s₂ := by
  obtain ⟨hn, hlen⟩ := h.idle.placed.sectors
  have hsec := h.sectors_outside
  have hk := h.short
  have hplaced : (reopened s₁ f).log.Placed := (hw.placed h.idle.placed).congr rfl rfl
  have hlength : (reopened s₁ f).log.length = s.log.length := hw.log_length
  have hat : EntryAt (reopened s₁ f).file (reopened s₁ f).log (s.log.write / 4096) b
      (1 + logSectors length offset) := hw.entryAt_of h hf.bytes hw.log_offset hw.log_length
  have hwlt : s.log.write / 4096 < s.log.length / 4096 := by
    have := h.idle.write_lt
    omega
  have hentry := hw.entry
  rw [← hw.guid_eq] at hentry
  have hsearch := @vhdxLogSearch_spec crc32cTable (reopened s₁ f) b _ (s.log.write / 4096) _ seq _ _
    heap hplaced (by rw [hlength]; exact hwlt)
    (by rw [hlength]; exact hw.noEntryAt h hfresh hf) hentry hw.seq_ne
    logFileOffset_mod hk hat
  obtain ⟨t, ht⟩ : ∃ t, t = { reopened s₁ f with
    log := { (reopened s₁ f).log with
      sequence := BitVec.ofNat 64 ((LogEntryHeader.get b).sequenceNumber + 1) } } := ⟨_, rfl⟩
  obtain ⟨f', hflush, hlen', hbytes⟩ := @LogWritten.flush crc32cTable length offset guid data s s₁ b
    seq hw h (heap 0) t
    (foundSequence (reopened s₁ f) (s.log.write / 4096) (logSectors length offset) b).log
    (by rw [ht]; exact hw.guid_eq) (by rw [ht]; exact hw.len_ge.trans hf.len_ge)
    (by rw [ht]; exact hf.bytes) hw.log_offset hw.log_length (hw.slot _) (hw.slot _)
  have hend := logSectors_le h.aligned
  have hfo := @logFileOffset_mod offset
  have hoff := h.below
  refine ⟨vhdxLogReset { t with file := f' }, ?_, ?_, hbytes⟩
  · have hoffset := hplaced.offset_ge
    have hpos := hplaced.length_pos
    have hguid : (reopened s₁ f).guid ≠ 0 := hw.guid_eq ▸ hfresh.ne_zero
    have hversion : (reopened s₁ f).version = 0 := hw.version.trans h.idle.version
    rw [vhdxParseLog, if_neg (by have := hplaced.offset_mod; omega),
      if_neg (not_not.mpr hversion), if_neg (not_or.mpr ⟨hguid, hpos.ne'⟩),
      if_neg (not_not.mpr hplaced.length_mod), hsearch]
    simp only [bind, Except.bind]
    rw [if_neg (by simp)]
    simp only [foundSequence] at hflush ⊢
    rw [← ht, hflush]
  · subst ht
    refine ⟨hplaced.congr rfl rfl, hw.version.trans h.idle.version, rfl, rfl, rfl,
      hplaced.length_pos, ?_⟩
    have hold := hf.len_le
    dsimp only [vhdxLogReset, reopened] at hlen' ⊢
    omega

end

end Replay

/-! ## Crash safety -/

section Main

variable {crc32cTable : BitVec 8 → BitVec 32} {length offset : ℕ} {guid : BitVec 128}
  {data : Bytes} {s : VhdxState}

theorem LogExact.crashSafe (hexact : LogExact length offset s) (h : Loggable length offset s)
    (hfresh : FreshGuid guid s) : VhdxCrashSafe crc32cTable length offset guid data s := by
  obtain ⟨-, -, htail⟩ := hexact
  intro junk merged heap
  constructor
  · obtain ⟨s₁, b, seq, hrun, hw⟩ := @vhdxLogWrite_spec crc32cTable length offset guid junk merged
      data s h.idle h.aligned h.room h.below
    refine ⟨s₁, hrun, fun f hf => ?_⟩
    obtain ⟨s₂, hparse, hidle₂, hlog⟩ := vhdxParseLog_spec hw h hfresh hf heap
    exact ⟨s₂, hparse, hidle₂, (hlog.replaced_iff h).mpr htail⟩
  · obtain ⟨s₂, hrun, hidle₂, hlog⟩ := @vhdxLogWriteAndFlush_spec crc32cTable length offset guid
      junk merged data s h (heap 0)
    exact ⟨s₂, hrun, hidle₂, (hlog.replaced_iff h).mpr htail⟩

/-- A write and flush that works does so because the write is `LogExact`. -/
theorem logExact_of_flush (hidle : LogIdle s)
    (hout : offset + length ≤ s.log.offset ∨ s.log.offset + s.log.length ≤ offset)
    (hfit : entrySectors length offset < s.log.length / 4096) (hoff : offset + length ≤ 2 ^ 63)
    {s₂} (hrun : vhdxLogWriteAndFlush length offset crc32cTable guid (fun _ _ => 0)
      (fun _ => 0) (fun _ => 0) data s = .ok s₂) (hrep : Replaced length offset data s s₂) :
    LogExact length offset s := by
  have h : offset % 4096 = 0 ∨ 0 < length := by
    by_contra hnot
    obtain ⟨hmid, hzero⟩ := not_or.mp hnot
    obtain rfl : length = 0 := by omega
    rw [vhdxLogWriteAndFlush, vhdxLogWrite_empty hidle hmid] at hrun
    cases hrun
  have hk : logSectors length offset ≤ 126 := by
    by_contra hlong
    rw [vhdxLogWriteAndFlush_long hidle h hfit hoff (Nat.not_le.mp hlong)] at hrun
    cases hrun
  have hfits : Loggable length offset s := ⟨hidle, hout, hfit, hoff, h, hk⟩
  obtain ⟨s₃, hrun₃, -, hlog⟩ := @vhdxLogWriteAndFlush_spec crc32cTable length offset guid
    (fun _ => 0) (fun _ => 0) data s hfits (fun _ _ => 0)
  obtain rfl : s₃ = s₂ := Except.ok.inj (hrun₃.symm.trans hrun)
  exact ⟨h, hk, (hlog.replaced_iff hfits).mp hrep⟩

/-- A log write is crash safe exactly if it is `LogExact`. The log is idle and has room for the
entry, the data is not for the log itself, and the GUID is new. -/
theorem vhdxCrashSafe_iff (hidle : LogIdle s) (hfresh : FreshGuid guid s)
    (hout : offset + length ≤ s.log.offset ∨ s.log.offset + s.log.length ≤ offset)
    (hfit : entrySectors length offset < s.log.length / 4096) (hoff : offset + length ≤ 2 ^ 63) :
    VhdxCrashSafe crc32cTable length offset guid data s ↔ LogExact length offset s := by
  refine ⟨fun hsafe => ?_, fun hexact =>
    hexact.crashSafe ⟨hidle, hout, hfit, hoff, hexact.1, hexact.2.1⟩ hfresh⟩
  obtain ⟨-, s₂, hrun, -, hrep⟩ := hsafe (fun _ => 0) (fun _ => 0) fun _ _ _ => 0
  exact logExact_of_flush hidle hout hfit hoff hrun hrep

/-- An image with a log of 1 MiB after the headers, that holds 5 at one place. -/
def smallImage : VhdxState where
  file := ⟨fun i => if i = 2 ^ 21 then 5 else 0, 2 ^ 22⟩
  guid := 0
  version := 0
  log := ⟨2 ^ 20, 2 ^ 20, 0, 0, 0, 0⟩

theorem smallImage_idle : LogIdle smallImage :=
  ⟨⟨le_rfl, rfl, by decide, rfl, by decide, by decide⟩, rfl, rfl, rfl, rfl, by decide, by decide⟩

theorem smallImage_fresh : FreshGuid 1 smallImage := by
  refine ⟨by decide, fun q hq => ?_⟩
  rw [getLe_eq_of_leBytes (x := 0) fun i hi => ?_]
  · decide
  · have hne : 2 ^ 20 + 4096 * q + 32 + i ≠ 2 ^ 21 := by omega
    rw [leBytes, Nat.zero_div]
    exact if_neg hne

/-- A whole sector is written safely. -/
theorem vhdxCrashSafe_sector : VhdxCrashSafe (fun _ => 0) 4096 (2 ^ 21) 1 (fun _ => 7) smallImage :=
  (vhdxCrashSafe_iff smallImage_idle smallImage_fresh (Or.inr (by decide)) (by decide)
    (by decide)).mpr ⟨Or.inl (by decide), by decide, fun a ha hlt => by
      have hend : logFileOffset (2 ^ 21) + 4096 * logSectors 4096 (2 ^ 21) = 2 ^ 21 + 4096 := by
        decide
      omega⟩

/-- One byte at the start of a sector that holds 5 there and zeroes after it : the byte after
the data becomes 5. And 127 whole sectors are not replayed. -/
theorem vhdxCrashSafe_fail :
    ¬VhdxCrashSafe (fun _ => 0) 1 (2 ^ 21) 1 (fun _ => 7) smallImage ∧
    ¬VhdxCrashSafe (fun _ => 0) (127 * 4096) (2 ^ 21) 1 (fun _ => 7) smallImage := by
  constructor
  · intro hsafe
    obtain ⟨-, s₂, hrun, -, hrep⟩ := hsafe (fun _ => 0) (fun _ => 0) fun _ _ _ => 0
    obtain ⟨-, -, htail⟩ := logExact_of_flush smallImage_idle (Or.inr (by decide)) (by decide)
      (by decide) hrun hrep
    exact absurd (htail (2 ^ 21 + 1) le_rfl (by decide)) (by decide)
  · intro hsafe
    obtain ⟨-, s₂, hrun, -, hrep⟩ := hsafe (fun _ => 0) (fun _ => 0) fun _ _ _ => 0
    obtain ⟨-, hk, -⟩ := logExact_of_flush smallImage_idle (Or.inr (by decide)) (by decide)
      (by decide) hrun hrep
    exact absurd hk (by decide)

end Main

end QemuArm
