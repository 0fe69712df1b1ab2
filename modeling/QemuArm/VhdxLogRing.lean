import QemuArm.VhdxLogEntry

/-!
# The circular buffer of the VHDX log

The log has `length / 4096` sectors, and `logSlot log q` is the position of the one with
number `q`, counted around. `EntryAt` says that the sectors from number `w` on hold an entry.
`writeSectorsLoop_spec` puts an entry there, `vhdxLogWrite_spec` is what `vhdx_log_write` does,
and `readSectors_one` reads one sector back.
-/

namespace QemuArm

open Nat

/-- What `vhdx_parse_log` checks of the place of the log, within the range of file offsets. -/
structure VhdxLog.Placed (log : VhdxLog) : Prop where
  offset_ge : 2 ^ 20 ≤ log.offset
  offset_mod : log.offset % 2 ^ 20 = 0
  length_pos : 0 < log.length
  length_mod : log.length % 2 ^ 20 = 0
  length_lt : log.length < 2 ^ 32
  end_le : log.offset + log.length ≤ 2 ^ 63

theorem VhdxLog.Placed.congr {log log' : VhdxLog} (h : log.Placed)
    (hoff : log'.offset = log.offset) (hlen : log'.length = log.length) : log'.Placed := by
  obtain ⟨h1, h2, h3, h4, h5, h6⟩ := h
  rw [← hoff] at h1 h2 h6
  rw [← hlen] at h3 h4 h5 h6
  exact ⟨h1, h2, h3, h4, h5, h6⟩

/-- The position of sector `q`. -/
def logSlot (log : VhdxLog) (q : ℕ) : ℕ := 4096 * (q % (log.length / 4096))

section Slots

variable {log : VhdxLog} {q q' : ℕ}

theorem VhdxLog.Placed.sectors (h : log.Placed) :
    256 ≤ log.length / 4096 ∧ 4096 * (log.length / 4096) = log.length := by
  have hpos := h.length_pos
  have hmod := h.length_mod
  omega

theorem logSlot_le (h : log.Placed) : logSlot log q + 4096 ≤ log.length := by
  obtain ⟨hn, hlen⟩ := h.sectors
  have hlt := mod_lt q (by omega : log.length / 4096 > 0)
  rw [logSlot]
  omega

theorem logSlot_mod : logSlot log q % 4096 = 0 := mul_mod_right 4096 _

theorem vhdxLogIncIdx_logSlot (h : log.Placed) :
    vhdxLogIncIdx (logSlot log q) log.length = logSlot log (q + 1) := by
  obtain ⟨hn, hlen⟩ := h.sectors
  have hlt := mod_lt q (by omega : log.length / 4096 > 0)
  rw [vhdxLogIncIdx, logSlot, logSlot, ← hlen]
  generalize log.length / 4096 = n at *
  rw [Nat.mul_div_cancel_left _ (by decide)]
  rcases lt_or_ge (q % n + 1) n with hcase | hcase
  · rw [if_neg (by omega), add_mod, mod_eq_of_lt (by omega : 1 < n), mod_eq_of_lt hcase]
    omega
  · have heq : q % n + 1 = n := by omega
    rw [if_pos (by omega), add_mod, mod_eq_of_lt (by omega : 1 < n), heq, mod_self]

/-- Less than one round apart, two sectors are not the same. -/
theorem logSlot_ne (hlt : q < q') (hround : q' < q + log.length / 4096) :
    logSlot log q ≠ logSlot log q' := by
  intro heq
  have hmod : q' % (log.length / 4096) = q % (log.length / 4096) := by
    rw [logSlot, logSlot] at heq
    omega
  have hdvd := dvd_of_mod_eq_zero (sub_mod_eq_zero_of_mod_eq hmod)
  have hzero := eq_zero_of_dvd_of_lt hdvd (by omega)
  omega

theorem logSlot_of_lt (hq : q < log.length / 4096) : logSlot log q = 4096 * q := by
  rw [logSlot, mod_eq_of_lt hq]

/-- An address is in one sector only. -/
theorem logSlot_eq_of_mem {a : ℕ} (h : log.offset + logSlot log q ≤ a)
    (h' : a < log.offset + logSlot log q + 4096) (hq : log.offset + logSlot log q' ≤ a)
    (hq' : a < log.offset + logSlot log q' + 4096) : logSlot log q = logSlot log q' := by
  rw [logSlot, logSlot] at *
  omega

end Slots

/-! ## Writing -/

/-- The `t` sectors of the log from number `w` on hold `b`. -/
def EntryAt (f : VhdxFile) (log : VhdxLog) (w : ℕ) (b : Bytes) (t : ℕ) : Prop :=
  ∀ j < t, ∀ a < 4096, f.bytes (log.offset + logSlot log (w + j) + a) = b (4096 * j + a)

section Write

variable {log : VhdxLog} {f : VhdxFile} {b : Bytes} {w t : ℕ}

/-- Sectors are put into the ring one after the other. -/
theorem writeSectorsLoop_spec (h : log.Placed) (hread : log.read = logSlot log w) :
    ∀ (m j cnt : ℕ) f (b : Bytes), j + m < log.length / 4096 →
    ∃ f', writeSectorsLoop log m cnt (logSlot log (w + j)) f b =
        (cnt + m, logSlot log (w + j + m), f') ∧
      f.len ≤ f'.len ∧ f'.len ≤ max f.len (log.offset + log.length) ∧
      EntryAt f' log (w + j) b m ∧
      ∀ a, (∀ i < m, a < log.offset + logSlot log (w + j + i) ∨
        log.offset + logSlot log (w + j + i) + 4096 ≤ a) → f'.bytes a = f.bytes a
  | 0, j, cnt, f, b, hjm =>
    ⟨f, rfl, le_rfl, le_max_left _ _, fun i hi => absurd hi (not_lt_zero i), fun _ _ => rfl⟩
  | m + 1, j, cnt, f, b, hjm => by
    have hfull : logSlot log (w + j + 1) ≠ log.read := by
      rw [hread]
      exact (logSlot_ne (by omega) (by omega)).symm
    obtain ⟨f', hrun, hlen, hlen', hentry, hframe⟩ := writeSectorsLoop_spec h hread m (j + 1)
      (cnt + 1) (f.pwrite (log.offset + logSlot log (w + j)) b 4096) (b.drop 4096) (by omega)
    have hslot := @logSlot_le log (w + j) h
    refine ⟨f', ?_, (le_max_left _ _).trans hlen, ?_, fun i hi a ha => ?_, fun a ha => ?_⟩
    · rw [writeSectorsLoop, vhdxLogIncIdx_logSlot h, if_neg hfull]
      rw [show cnt + (m + 1) = cnt + 1 + m by omega,
        show w + j + (m + 1) = w + (j + 1) + m by omega]
      exact hrun
    · rw [VhdxFile.pwrite_len] at hlen'
      omega
    · cases i with
      | zero =>
        rw [hframe]
        · rw [VhdxFile.pwrite_bytes, add_zero, memcpy_add ha, mul_zero, zero_add]
        · intro i hi
          -- the later sectors are others
          have hne : logSlot log (w + j + 0) ≠ logSlot log (w + (j + 1) + i) :=
            logSlot_ne (by omega) (by omega)
          by_contra hmem
          exact hne (logSlot_eq_of_mem (a := log.offset + logSlot log (w + j + 0) + a)
            (by omega) (by omega) (by omega) (by omega))
      | succ i =>
        have hi' := hentry i (by omega) a ha
        rw [show w + j + (i + 1) = w + (j + 1) + i by omega, hi']
        exact congrArg b (by omega)
    · rw [hframe a fun i hi => by
        have := ha (i + 1) (by omega)
        rwa [show w + (j + 1) + i = w + j + (i + 1) by omega]]
      rcases ha 0 (by omega) with hlt | hge
      · exact memcpy_of_lt hlt
      · exact memcpy_of_ge hge

/-- The log is empty and can be written. -/
structure LogIdle (s : VhdxState) : Prop where
  placed : s.log.Placed
  version : s.version = 0
  guid : s.guid = 0
  read : s.log.read = s.log.write
  write_mod : s.log.write % 4096 = 0
  write_lt : s.log.write < s.log.length
  len_le : s.file.len ≤ 2 ^ 63

theorem LogIdle.write_eq {s} (h : LogIdle s) :
    s.log.write = logSlot s.log (s.log.write / 4096) := by
  obtain ⟨hn, hlen⟩ := h.placed.sectors
  have hmod := h.write_mod
  have hlt := h.write_lt
  rw [logSlot_of_lt (by omega)]
  omega

/-- The sectors of an entry : one or more for the descriptors, and the data. -/
def entrySectors (length offset : ℕ) : ℕ :=
  vhdxComputeDescSectors (logSectors length offset) + logSectors length offset

/-- The state after `vhdx_log_write` : an entry in the log, and the rest of the file as it was. -/
structure LogWritten (crc32cTable : BitVec 8 → BitVec 32) (length offset : ℕ) (guid : BitVec 128)
    (data : Bytes) (s s₁ : VhdxState) (b : Bytes) (seq : ℕ) : Prop where
  guid_eq : s₁.guid = guid
  version : s₁.version = s.version
  log_offset : s₁.log.offset = s.log.offset
  log_length : s₁.log.length = s.log.length
  log_read : s₁.log.read = logSlot s.log (s.log.write / 4096)
  log_write : s₁.log.write = logSlot s.log (s.log.write / 4096 + entrySectors length offset)
  seq_ne : seq ≠ 0
  entry : IsEntry crc32cTable b (logSectors length offset) seq guid s.file.len
    (logFileOffset offset) ((logged length offset s.file.bytes data).drop (logFileOffset offset))
  entryAt : EntryAt s₁.file s.log (s.log.write / 4096) b (entrySectors length offset)
  len_ge : s.file.len ≤ s₁.file.len
  len_le : s₁.file.len ≤ max s.file.len (s.log.offset + s.log.length)
  frame : ∀ a, (∀ i < entrySectors length offset,
    a < s.log.offset + logSlot s.log (s.log.write / 4096 + i) ∨
      s.log.offset + logSlot s.log (s.log.write / 4096 + i) + 4096 ≤ a) →
    s₁.file.bytes a = s.file.bytes a

/-- A write to an empty log leaves one entry there. -/
theorem vhdxLogWrite_spec {crc32cTable} {length offset : ℕ}
    {guid} {junk merged data : Bytes} {s} (hidle : LogIdle s) (h : offset % 4096 = 0 ∨ 0 < length)
    (hfit : entrySectors length offset < s.log.length / 4096) (hoff : offset + length ≤ 2 ^ 63) :
    ∃ s₁ b seq, vhdxLogWrite length offset crc32cTable guid junk merged data s = .ok s₁ ∧
      LogWritten crc32cTable length offset guid data s s₁ b seq := by
  have hlt32 := hidle.placed.length_lt
  have hcover := le_logSectors h
  have hfo := logFileOffset_add offset
  obtain ⟨seq, hseq⟩ := @exists_eq _ (if s.log.sequence = 0 then 1 else s.log.sequence)
  have hseq0 : seq ≠ 0 := by
    rw [hseq]
    split_ifs with h0
    · decide
    · exact h0
  obtain ⟨k, hk⟩ := @exists_eq _ (logSectors length offset)
  rw [entrySectors, ← hk] at hfit
  obtain ⟨hdr, hhdr⟩ : ∃ hdr : LogEntryHeader, hdr =
    { signature := logeSignature
      checksum := 0
      entryLength := (vhdxComputeDescSectors k + k) * 4096
      tail := s.log.tail
      sequenceNumber := seq.toNat
      descriptorCount := k
      logGuid := guid.toNat
      flushedFileOffset := s.file.len
      lastFileOffset := s.file.len } := ⟨_, rfl⟩
  obtain ⟨b', hloop, hfill⟩ := @logWriteLoop_spec seq.toNat length offset
    (vhdxComputeDescSectors k * 4096) s.file data merged h
    (hk ▸ le_vhdxComputeDescSectors k) k 0 (memcpy junk 0 (pack hdr.fields) 64)
    (by rw [hk, zero_add])
  obtain ⟨f', hwrite, hge, hle, hentry, hframe⟩ := writeSectorsLoop_spec hidle.placed
    (hidle.read.trans hidle.write_eq) (vhdxComputeDescSectors k + k) 0 0 s.file
    (vhdxUpdateChecksum crc32cTable b' ((vhdxComputeDescSectors k + k) * 4096)) (by omega)
  rw [mul_zero, add_zero, Nat.zero_sub] at hloop
  rw [zero_add, add_zero, ← hidle.write_eq] at hwrite
  refine ⟨{ s with
      file := f'
      guid := guid
      log :=
        { s.log with
          write := logSlot s.log (s.log.write / 4096 + (vhdxComputeDescSectors k + k))
          sequence := seq + 1
          tail := logSlot s.log (s.log.write / 4096 + (vhdxComputeDescSectors k + k)) } },
    vhdxUpdateChecksum crc32cTable b' ((vhdxComputeDescSectors k + k) * 4096), seq.toNat, ?_, ?_⟩
  · rw [vhdxLogWrite, if_neg (by omega), if_neg (not_not.mpr hidle.guid), ← hseq, ← hk]
    dsimp only
    rw [if_neg (by omega), ← hhdr, hloop]
    simp only [bind, Except.bind]
    rw [hwrite, if_neg (not_not.mpr rfl)]
  · have hentry' : IsEntry crc32cTable _ k seq.toNat guid s.file.len (logFileOffset offset)
        ((logged length offset s.file.bytes data).drop (logFileOffset offset)) :=
      isEntry_of_filled hk (by rw [hhdr]; exact ⟨rfl, rfl, rfl, rfl, rfl, rfl, rfl⟩)
        (fun a ha => memcpy_zero_of_lt ha) hfill (by omega) seq.isLt
        (by have := hidle.len_le; omega) (by omega)
    rw [hk] at hentry hframe hentry' ⊢
    exact ⟨rfl, rfl, rfl, rfl, hidle.read.trans hidle.write_eq, rfl,
      fun h0 => hseq0 (BitVec.eq_of_toNat_eq h0), hentry', hentry, hge, hle, hframe⟩

end Write

end QemuArm
