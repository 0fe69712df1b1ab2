import QemuArm.VhdxLog

/-!
# What a VHDX log entry holds

`logWriteLoop_spec` says what the loop of `vhdx_log_write` leaves in its buffer, and
`vhdxLogWrite_entry` that the whole buffer is an entry (`IsEntry`) for the sectors from
`logFileOffset` on, with the contents `logged`.
-/

namespace QemuArm

open LogDescriptor

/-! ## The sectors of the data -/

/-- What the entry holds for the file : the data, before it the file, and after it the file
moved by the bytes of the data in the last sector. -/
def logged (length offset : ℕ) (f data : Bytes) : Bytes := fun a =>
  if offset ≤ a ∧ a < offset + length then data (a - offset)
  else if a < offset then f a
  else f (a - trailingLength length offset)

section Geometry

variable {length offset : ℕ}

/-- The lengths at both ends of a write and its number of sectors. -/
theorem log_geometry (h : offset % 4096 = 0 ∨ 0 < length) : (trailingLength length offset < 4096) ∧
    (trailingLength length offset ≠ 0 → offset % 4096 + length + 4096 =
      4096 * logSectors length offset + trailingLength length offset) ∧
    (trailingLength length offset = 0 →
      offset % 4096 + length = 4096 * logSectors length offset ∨
        logSectors length offset = 1 ∧ offset % 4096 ≠ 0 ∧ offset % 4096 + length < 4096) ∧
    (leadingLength length offset = 0 → offset % 4096 = 0) ∧ (leadingLength length offset ≠ 0 →
      leadingLength length offset = 4096 - offset % 4096 ∧ 4096 ≤ offset % 4096 + length ∨
      leadingLength length offset = length ∧ offset % 4096 + length < 4096 ∧
        logSectors length offset = 1 ∧ trailingLength length offset = 0) := by
  by_cases hal : offset % 4096 = 0
  · simp only [logSectors, trailingLength, alignedLength, leadingLength, hal, if_true, Nat.sub_zero]
    refine ⟨?_, fun h => ?_, fun h => ?_, fun _ => trivial, fun h => absurd rfl h⟩
    · omega
    · rw [if_neg h]
      omega
    · rw [if_pos h]
      omega
  · have hlen : 0 < length := h.resolve_left hal
    by_cases hlt : length < 4096 - offset % 4096
    · simp only [logSectors, trailingLength, alignedLength, leadingLength, hal, hlt, if_true,
        if_false, Nat.sub_self, Nat.zero_div, Nat.zero_mul]
      exact ⟨by omega, fun h => absurd rfl h, fun _ => Or.inr ⟨trivial, hal, by omega⟩,
        fun h => absurd h hlen.ne', fun _ => Or.inr ⟨trivial, by omega, trivial, trivial⟩⟩
    · simp only [logSectors, trailingLength, alignedLength, leadingLength, hal, hlt, if_false]
      refine ⟨?_, fun h => ?_, fun h => ?_, fun h => ?_, fun h => .inl ⟨trivial, by omega⟩⟩
      · omega
      · rw [if_neg h]
        omega
      · rw [if_pos h]
        omega
      · omega

theorem logFileOffset_add (offset : ℕ) : logFileOffset offset + offset % 4096 = offset := by
  rw [logFileOffset]
  omega

/-- The sectors cover the data, and less than one sector more. -/
theorem le_logSectors (h : offset % 4096 = 0 ∨ 0 < length) :
    offset + length ≤ logFileOffset offset + 4096 * logSectors length offset := by
  have hgeo := log_geometry h
  have hfo := logFileOffset_add offset
  omega

theorem logSectors_le (h : offset % 4096 = 0 ∨ 0 < length) :
    logFileOffset offset + 4096 * logSectors length offset < offset + length + 4096 := by
  have hgeo := log_geometry h
  have hfo := logFileOffset_add offset
  omega

variable {f : VhdxFile} {data merged : Bytes} {i : ℕ}

theorem rawSector_spec (h : offset % 4096 = 0 ∨ 0 < length) (hi : i < logSectors length offset) :
    ∃ raw n, rawSector length offset f data merged i (logFileOffset offset + 4096 * i)
        (4096 * i - offset % 4096) = .ok (raw, n) ∧
      (∀ a < 4096, raw a =
        logged length offset f.bytes data (logFileOffset offset + 4096 * i + a)) ∧
      (i + 1 < logSectors length offset →
        4096 * i - offset % 4096 + n = 4096 * (i + 1) - offset % 4096) := by
  obtain ⟨htlt, htrail, hnotrail, hlead, hlead'⟩ := log_geometry h
  have hfo := logFileOffset_add offset
  rw [rawSector]
  generalize hfov : logFileOffset offset = fo at *
  by_cases hfirst : i = 0 ∧ leadingLength length offset ≠ 0
  · rw [if_pos hfirst]
    obtain ⟨rfl, hne⟩ := hfirst
    refine ⟨_, _, rfl, fun a ha => ?_, fun hlast => ?_⟩
    · simp only [memcpy, logged, Bytes.drop_apply]
      rcases hlead' hne with ⟨hcase, hle⟩ | ⟨hcase, hlt, -, htail⟩
      · split_ifs <;> first | omega | exact congrArg _ (by omega)
      · split_ifs <;> first | omega | exact congrArg _ (by omega)
    · rcases hlead' hne with ⟨hcase, -⟩ | ⟨-, -, hone, -⟩ <;> omega
  · rw [if_neg hfirst]
    by_cases hlast : i + 1 = logSectors length offset ∧ trailingLength length offset ≠ 0
    · rw [if_pos hlast]
      refine ⟨_, _, rfl, fun a ha => ?_, fun hlt => absurd hlt (by omega)⟩
      simp only [memcpy, logged, Bytes.drop_apply]
      split_ifs <;> first | omega | exact congrArg _ (by omega)
    · rw [if_neg hlast]
      rw [if_neg (by omega)]
      refine ⟨_, _, rfl, fun a ha => ?_, fun hlt => by omega⟩
      simp only [logged, Bytes.drop_apply]
      rw [if_pos (by omega)]
      congr 1
      omega

end Geometry

/-! ## The loop over the sectors -/

section Loop

variable {seq fileOffset : ℕ} {raw raw' : Bytes}

theorem rawDescriptor_congr (h : ∀ a < 4096, raw a = raw' a) :
    rawDescriptor seq fileOffset raw = rawDescriptor seq fileOffset raw' := by
  have hlead : getLe raw 8 = getLe raw' 8 := getLe_congr fun i hi => h i (by omega)
  have htrail : getLe (raw.drop 4092) 4 = getLe (raw'.drop 4092) 4 :=
    getLe_congr fun i hi => h (4092 + i) (by omega)
  rw [rawDescriptor, rawDescriptor, hlead, htrail]

theorem dataSector_congr (h : ∀ a < 4096, raw a = raw' a) {a} (ha : a < 4096) :
    dataSector seq raw a = dataSector seq raw' a := by
  rw [dataSector, dataSector, h a ha]

variable {length offset first : ℕ} {f : VhdxFile} {data merged : Bytes}

/-- From `buffer` to `buffer'` the descriptors and the data sectors from `i` on are filled in.
The others and the header stay. -/
structure EntryFilled (length offset seq first : ℕ) (f : VhdxFile) (data : Bytes) (i : ℕ)
    (buffer buffer' : Bytes) : Prop where
  head : ∀ a < 64 + 32 * i, buffer' a = buffer a
  done : ∀ a < first + 4096 * i, first ≤ a → buffer' a = buffer a
  desc : ∀ j, i ≤ j → j < logSectors length offset → ∀ a < 32, buffer' (64 + 32 * j + a) =
    pack (rawDescriptor seq (logFileOffset offset + 4096 * j)
      ((logged length offset f.bytes data).drop (logFileOffset offset + 4096 * j))).fields a
  data : ∀ j, i ≤ j → j < logSectors length offset → ∀ a < 4096, buffer' (first + 4096 * j + a) =
    dataSector seq ((logged length offset f.bytes data).drop (logFileOffset offset + 4096 * j)) a

theorem EntryFilled.refl {buffer} :
    EntryFilled length offset seq first f data (logSectors length offset) buffer buffer :=
  ⟨fun _ _ => rfl, fun _ _ _ => rfl, fun _ hij hj => absurd hj (Nat.not_lt.mpr hij),
    fun _ hij hj => absurd hj (Nat.not_lt.mpr hij)⟩

/-- The descriptors and sectors of an entry are filled in. -/
theorem logWriteLoop_spec (h : offset % 4096 = 0 ∨ 0 < length)
    (hfirst : 64 + 32 * logSectors length offset ≤ first) : ∀ m i buffer,
    i + m = logSectors length offset →
    ∃ buffer', logWriteLoop length offset f data merged seq first m i
        (logFileOffset offset + 4096 * i) (4096 * i - offset % 4096) buffer = .ok buffer' ∧
      EntryFilled length offset seq first f data i buffer buffer'
  | 0, i, buffer, him => by
    obtain rfl : i = logSectors length offset := him
    exact ⟨buffer, rfl, EntryFilled.refl⟩
  | m + 1, i, buffer, him => by
    obtain ⟨raw, n, hraw, hbytes, hnext⟩ :=
      @rawSector_spec length offset f data merged i h (by omega)
    obtain ⟨b₁, hb₁⟩ := @exists_eq _ (memcpy buffer (64 + 32 * i) (pack (rawDescriptor seq
      (logFileOffset offset + 4096 * i) raw).fields) 32)
    obtain ⟨b₂, hb₂⟩ := @exists_eq _ (memcpy b₁ (first + 4096 * i) (dataSector seq raw) 4096)
    have hstep : logWriteLoop length offset f data merged seq first (m + 1) i
        (logFileOffset offset + 4096 * i) (4096 * i - offset % 4096) buffer =
          logWriteLoop length offset f data merged seq first m (i + 1)
            (logFileOffset offset + 4096 * i + 4096) (4096 * i - offset % 4096 + n) b₂ := by
      rw [logWriteLoop, hraw, hb₂, hb₁]
      rfl
    -- after the last sector the position in the data does not matter
    have hrest : ∃ buffer', logWriteLoop length offset f data merged seq first m (i + 1)
        (logFileOffset offset + 4096 * i + 4096) (4096 * i - offset % 4096 + n) b₂ =
          .ok buffer' ∧ EntryFilled length offset seq first f data (i + 1) b₂ buffer' := by
      cases m with
      | zero => exact ⟨b₂, rfl, him ▸ EntryFilled.refl⟩
      | succ m =>
        rw [hnext (by omega), add_assoc _ _ 4096]
        exact logWriteLoop_spec h hfirst (m + 1) (i + 1) b₂ (by omega)
    obtain ⟨buffer', hrun, hfill⟩ := hrest
    have hcongr : ∀ a < 4096, raw a =
        (logged length offset f.bytes data).drop (logFileOffset offset + 4096 * i) a := hbytes
    refine ⟨buffer', hstep.trans hrun, fun a ha => ?_, fun a ha hge => ?_,
      fun j hij hj a ha => ?_, fun j hij hj a ha => ?_⟩
    · rw [hfill.head a (by omega), hb₂, memcpy_of_lt (by omega), hb₁, memcpy_of_lt ha]
    · rw [hfill.done a (by omega) hge, hb₂, memcpy_of_lt ha, hb₁, memcpy_of_ge (by omega)]
    · rcases eq_or_lt_of_le hij with rfl | hlt
      · rw [hfill.head _ (by omega), hb₂, memcpy_of_lt (by omega), hb₁, memcpy_add ha,
          rawDescriptor_congr hcongr]
      · exact hfill.desc j hlt hj a ha
    · rcases eq_or_lt_of_le hij with rfl | hlt
      · rw [hfill.done _ (by omega) (by omega), hb₂, memcpy_add ha, dataSector_congr hcongr ha]
      · exact hfill.data j hlt hj a ha

end Loop

/-! ## Reading the records back -/

section Records

variable {b : Bytes}

/-- A field of a record that is in the buffer. -/
theorem getLe_record {fs off n x}
    (hb : ∀ i < n, b (off + i) = pack fs (off + i)) (hfield : FieldAt fs off n x)
    (hx : x < 256 ^ n) : getLe (b.drop off) n = x := by
  have hpack : getLe (b.drop off) n = getLe ((pack fs).drop off) n := getLe_congr hb
  rw [hpack, getLe_drop_pack hfield, Nat.mod_eq_of_lt hx]

theorem LogDescriptor.get_raw {seq fileOffset raw}
    (hb : ∀ a < 32, b a = pack (rawDescriptor seq fileOffset raw).fields a)
    (hoff : fileOffset < 2 ^ 64) (hseq : seq < 2 ^ 64) :
    get b = rawDescriptor seq fileOffset raw := by
  have hsub : ∀ off n, off + n ≤ 32 → ∀ i < n, b (off + i) =
      pack (rawDescriptor seq fileOffset raw).fields (off + i) :=
    fun off n hle i hi => hb _ (by omega)
  have hsig : getLe (b.drop 0) 4 = descSignature :=
    getLe_record (hsub 0 4 (by decide)) (by simp [fields, FieldAt]) (by decide)
  have htrail : getLe (b.drop 4) 4 = getLe (raw.drop 4092) 4 :=
    getLe_record (hsub 4 4 (by decide)) (by simp [fields, FieldAt]) (getLe_lt _ _)
  have hlead : getLe (b.drop 8) 8 = getLe raw 8 :=
    getLe_record (hsub 8 8 (by decide)) (by simp [fields, FieldAt]) (getLe_lt _ _)
  have hfo : getLe (b.drop 16) 8 = fileOffset :=
    getLe_record (hsub 16 8 (by decide)) (by simp [fields, FieldAt]) (by simpa using hoff)
  have hs : getLe (b.drop 24) 8 = seq :=
    getLe_record (hsub 24 8 (by decide)) (by simp [fields, FieldAt]) (by simpa using hseq)
  rw [get, hsig, htrail, hlead, hfo, hs, rawDescriptor]

end Records

/-! ## The whole entry -/

section Entry

variable (crc32cTable : BitVec 8 → BitVec 32)

/-- The bytes are an entry for `k` sectors of the file from `fileOffset` on, with the contents
`raw`. -/
structure IsEntry (b : Bytes) (k seq : ℕ) (guid : BitVec 128) (len fileOffset : ℕ) (raw : Bytes) :
    Prop where
  signature : (LogEntryHeader.get b).signature = logeSignature
  entryLength : (LogEntryHeader.get b).entryLength = (vhdxComputeDescSectors k + k) * 4096
  sequenceNumber : (LogEntryHeader.get b).sequenceNumber = seq
  descriptorCount : (LogEntryHeader.get b).descriptorCount = k
  logGuid : (LogEntryHeader.get b).logGuid = guid.toNat
  flushedFileOffset : (LogEntryHeader.get b).flushedFileOffset = len
  lastFileOffset : (LogEntryHeader.get b).lastFileOffset = len
  checksum : (LogEntryHeader.get b).checksum =
    (crc32c crc32cTable 0xffffffff (clearChecksum b) ((vhdxComputeDescSectors k + k) * 4096)).toNat
  desc : ∀ i < k, descAt b i = rawDescriptor seq (fileOffset + 4096 * i) (raw.drop (4096 * i))
  data : ∀ i < k, ∀ a < 4096, b (vhdxComputeDescSectors k * 4096 + 4096 * i + a) =
    dataSector seq (raw.drop (4096 * i)) a

variable {crc32cTable} {length offset seq k : ℕ} {f : VhdxFile} {data b b' : Bytes}

/-- The header and the descriptors end before the data sectors. -/
theorem le_vhdxComputeDescSectors (k : ℕ) : 64 + 32 * k ≤ vhdxComputeDescSectors k * 4096 := by
  rw [vhdxComputeDescSectors]
  split <;> omega

variable {size : ℕ}

theorem vhdxUpdateChecksum_of_lt {a} (ha : a < 4) :
    vhdxUpdateChecksum crc32cTable b size a = b a := by
  rw [vhdxUpdateChecksum, memcpy_of_lt ha, clearChecksum, memcpy_of_lt ha]

theorem vhdxUpdateChecksum_of_ge {a} (ha : 8 ≤ a) :
    vhdxUpdateChecksum crc32cTable b size a = b a := by
  rw [vhdxUpdateChecksum, memcpy_of_ge ha, clearChecksum, memcpy_of_ge ha]

theorem clearChecksum_vhdxUpdateChecksum :
    clearChecksum (vhdxUpdateChecksum crc32cTable b size) = clearChecksum b := by
  funext a
  rw [clearChecksum, vhdxUpdateChecksum, clearChecksum]
  simp only [memcpy]
  split_ifs <;> rfl

theorem getLe_vhdxUpdateChecksum :
    getLe ((vhdxUpdateChecksum crc32cTable b size).drop 4) 4 =
      (crc32c crc32cTable 0xffffffff (clearChecksum b) size).toNat := by
  refine (getLe_eq_of_leBytes fun i hi => ?_).trans (Nat.mod_eq_of_lt (BitVec.isLt _))
  rw [Bytes.drop_apply, vhdxUpdateChecksum, memcpy_add hi]

theorem isEntry_of_filled {hdr : LogEntryHeader} {guid : BitVec 128}
    (hk : k = logSectors length offset) (hhdr : hdr.signature = logeSignature ∧
      hdr.entryLength = (vhdxComputeDescSectors k + k) * 4096 ∧ hdr.sequenceNumber = seq ∧
      hdr.descriptorCount = k ∧ hdr.logGuid = guid.toNat ∧ hdr.flushedFileOffset = f.len ∧
      hdr.lastFileOffset = f.len) (hb : ∀ a < 64, b a = pack hdr.fields a)
    (hfill : EntryFilled length offset seq (vhdxComputeDescSectors k * 4096) f data 0 b b')
    (hsize : (vhdxComputeDescSectors k + k) * 4096 < 2 ^ 32) (hseq : seq < 2 ^ 64)
    (hlen : f.len < 2 ^ 64) (hoff : logFileOffset offset + 4096 * k ≤ 2 ^ 64) :
    IsEntry crc32cTable
      (vhdxUpdateChecksum crc32cTable b' ((vhdxComputeDescSectors k + k) * 4096)) k seq guid f.len
      (logFileOffset offset)
      ((logged length offset f.bytes data).drop (logFileOffset offset)) := by
  obtain ⟨e, he⟩ := @exists_eq _ (vhdxUpdateChecksum crc32cTable b' ((vhdxComputeDescSectors k + k)
    * 4096))
  have hlow : ∀ a < 64, a < 4 ∨ 8 ≤ a → e a = pack hdr.fields a := by
    rintro a ha (ha' | ha')
    · rw [he, vhdxUpdateChecksum_of_lt ha', hfill.head a ha, hb a ha]
    · rw [he, vhdxUpdateChecksum_of_ge ha', hfill.head a ha, hb a ha]
  have hfield : ∀ off n x, FieldAt hdr.fields off n x → off + n ≤ 64 → off + n ≤ 4 ∨ 8 ≤ off →
      x < 256 ^ n → getLe (e.drop off) n = x := fun off n x hf hle hoff hx =>
    getLe_record (fun i hi => hlow _ (by omega) (by omega)) hf hx
  have hle := le_vhdxComputeDescSectors k
  obtain ⟨h1, h2, h3, h4, h5, h6, h7⟩ := hhdr
  rw [← he]
  refine ⟨hfield 0 4 _ ?_ ?_ ?_ ?_, hfield 8 4 _ ?_ ?_ ?_ ?_, hfield 16 8 _ ?_ ?_ ?_ ?_,
    hfield 24 4 _ ?_ ?_ ?_ ?_, hfield 32 16 _ ?_ ?_ ?_ ?_, hfield 48 8 _ ?_ ?_ ?_ ?_,
    hfield 56 8 _ ?_ ?_ ?_ ?_, ?_, fun i hi => ?_, fun i hi a ha => ?_⟩
  all_goals first
    | (simp [LogEntryHeader.fields, FieldAt, h1, h2, h3, h4, h5, h6, h7]; done)
    | omega
    | exact guid.isLt
    | decide
    | skip
  · rw [he, clearChecksum_vhdxUpdateChecksum]
    exact getLe_vhdxUpdateChecksum
  · rw [Bytes.drop_drop]
    refine get_raw (fun a ha => ?_) (by omega) hseq
    rw [Bytes.drop_apply, he, vhdxUpdateChecksum_of_ge (by omega)]
    exact hfill.desc i (Nat.zero_le i) (hk ▸ hi) a ha
  · rw [he, vhdxUpdateChecksum_of_ge (by omega), Bytes.drop_drop]
    exact hfill.data i (Nat.zero_le i) (hk ▸ hi) a ha

end Entry

end QemuArm
