import QemuArm.VhdxLogRing

/-!
# Replaying a VHDX log entry

`flushEntry_spec` : the sectors of an entry with at most 126 of them are written to the file.
`flushEntry_long` : with more of them the descriptors are read over each other, and the entry
is refused.
-/

namespace QemuArm

open LogEntryHeader

section Read

variable {log : VhdxLog} {f : VhdxFile} {buf b : Bytes} {q w t : ℕ}

theorem readSectors_one (h : log.Placed) (hread : log.read = logSlot log q)
    (hne : logSlot log q ≠ log.write) :
    vhdxLogReadSectors f log 1 buf = (1, { log with read := logSlot log (q + 1) },
      memcpy buf 0 (f.bytes.drop (log.offset + logSlot log q)) 4096) := by
  rw [vhdxLogReadSectors, readSectorsLoop, hread, if_neg hne, readSectorsLoop,
    vhdxLogIncIdx_logSlot h]

/-- The same, from the position of sector `q`. -/
theorem readSectors_at (h : log.Placed) (hne : logSlot log q ≠ log.write) :
    vhdxLogReadSectors f { log with read := logSlot log q } 1 buf =
      (1, { log with read := logSlot log (q + 1) },
        memcpy buf 0 (f.bytes.drop (log.offset + logSlot log q)) 4096) :=
  readSectors_one (h.congr rfl rfl) rfl hne

/-- Reading many sectors leaves everything after the first sector of the buffer. -/
theorem readSectorsLoop_many (h : log.Placed) : ∀ m n q buf,
    (∀ j < m, logSlot log (q + j) ≠ log.write) →
    ∃ buf', readSectorsLoop f log m n (logSlot log q) buf = (n + m, logSlot log (q + m), buf') ∧
      ∀ a, 4096 ≤ a → buf' a = buf a
  | 0, n, q, buf, _ => ⟨buf, rfl, fun _ _ => rfl⟩
  | m + 1, n, q, buf, hne => by
    obtain ⟨buf', hrun, hbuf⟩ := readSectorsLoop_many h m (n + 1) (q + 1)
      (memcpy buf 0 (f.bytes.drop (log.offset + logSlot log q)) 4096) fun j hj => by
        rw [add_right_comm]
        exact hne (j + 1) (by omega)
    refine ⟨buf', ?_, fun a ha => (hbuf a ha).trans (memcpy_of_ge (by omega))⟩
    have hne0 := hne 0 (Nat.succ_pos m)
    rw [add_zero] at hne0
    rw [readSectorsLoop, if_neg hne0, vhdxLogIncIdx_logSlot h, hrun, add_right_comm n 1 m,
      add_right_comm q 1 m]
    rfl

theorem vhdxLogPeekHdr_eq (h : log.Placed) (hread : log.read = logSlot log q)
    (hne : logSlot log q ≠ log.write) : vhdxLogPeekHdr f log =
      .ok (get (f.bytes.drop (log.offset + logSlot log q))) := by
  have hle := @logSlot_le log q h
  rw [vhdxLogPeekHdr, hread, if_neg (not_not.mpr logSlot_mod)]
  rw [if_neg (by omega : ¬log.length < logSlot log q + 64), if_neg hne]

theorem LogEntryHeader.get_congr {c} (h : ∀ a < 64, b a = c a) : get b = get c := by
  have hfield : ∀ off n, off + n ≤ 64 → getLe (b.drop off) n = getLe (c.drop off) n :=
    fun off n hle => getLe_congr fun i hi => h (off + i) (by omega)
  simp only [get, hfield 0 4 (by decide), hfield 4 4 (by decide),
    hfield 8 4 (by decide), hfield 12 4 (by decide), hfield 16 8 (by decide),
    hfield 24 4 (by decide), hfield 32 16 (by decide), hfield 48 8 (by decide),
    hfield 56 8 (by decide)]

theorem descAt_congr {c i}
    (h : ∀ a < 32, b (64 + 32 * i + a) = c (64 + 32 * i + a)) : descAt b i = descAt c i := by
  have hfield : ∀ off n, off + n ≤ 32 →
      getLe ((b.drop (64 + 32 * i)).drop off) n = getLe ((c.drop (64 + 32 * i)).drop off) n :=
    fun off n hle => getLe_congr fun a ha => h (off + a) (by omega)
  simp only [descAt, LogDescriptor.get, hfield 0 4 (by decide), hfield 4 4 (by decide),
    hfield 8 8 (by decide), hfield 16 8 (by decide), hfield 24 8 (by decide)]

theorem EntryAt.peek (h : EntryAt f log w b t) (ht : 0 < t) :
    get (f.bytes.drop (log.offset + logSlot log w)) = get b :=
  get_congr fun a ha => by
    have := h 0 ht a (by omega)
    rwa [mul_zero, zero_add] at this

/-- An entry stays when something is written outside of the log. -/
theorem EntryAt.pwrite (h : EntryAt f log w b t) (hp : log.Placed) {off n src}
    (hout : off + n ≤ log.offset ∨ log.offset + log.length ≤ off) :
    EntryAt (f.pwrite off src n) log w b t := by
  intro j hj a ha
  have hle := @logSlot_le log (w + j) hp
  rw [← h j hj a ha]
  rcases hout with hout | hout
  · exact memcpy_of_ge (by omega)
  · exact memcpy_of_lt (by omega)

end Read

/-! ## The descriptors -/

section Desc

variable {crc32cTable : BitVec 8 → BitVec 32} {log : VhdxLog} {s : VhdxState}
  {b raw junk : Bytes} {w k seq len fo : ℕ}

theorem IsEntry.hdr_valid (he : IsEntry crc32cTable b k seq s.guid len fo raw) (hseq : seq ≠ 0)
    (hfit : (vhdxComputeDescSectors k + k) * 4096 ≤ log.length) :
    vhdxLogHdrIsValid log (get b) s.guid = true := by
  rw [vhdxLogHdrIsValid, he.signature, he.entryLength, he.sequenceNumber, he.logGuid,
    he.descriptorCount]
  refine decide_eq_true ⟨rfl, hfit, Nat.mul_mod_left _ _, hseq, rfl, by omega⟩

theorem vhdxComputeDescSectors_pos (k : ℕ) : 0 < vhdxComputeDescSectors k := by
  have := le_vhdxComputeDescSectors k
  omega

theorem vhdxComputeDescSectors_one (hk : k ≤ 126) : vhdxComputeDescSectors k = 1 := by
  rw [vhdxComputeDescSectors]
  split <;> omega

section

variable (hp : log.Placed) (he : IsEntry crc32cTable b k seq s.guid len fo raw) (hseq : seq ≠ 0)
include hp he hseq

/-- The header and the descriptors of an entry of one descriptor sector. -/
theorem vhdxLogReadDesc_spec (hfo : fo % 4096 = 0) (hk : k ≤ 126)
    (hat : EntryAt s.file log w b (1 + k)) (hread : log.read = logSlot log w)
    (hne : logSlot log w ≠ log.write) :
    ∃ buf, vhdxLogReadDesc junk s log = .ok ({ log with read := logSlot log (w + 1) }, buf) ∧
      (∀ a < 4096, buf a = b a) ∧ get buf = get b := by
  have hbuf : ∀ a < 4096,
      memcpy junk 0 (s.file.bytes.drop (log.offset + logSlot log w)) 4096 a = b a := by
    intro a ha
    have hsector := hat 0 (by omega) a ha
    rw [mul_zero, zero_add] at hsector
    rw [memcpy_zero_of_lt ha]
    exact hsector
  refine ⟨_, ?_, hbuf, get_congr fun a ha => hbuf a (by omega)⟩
  obtain ⟨hn, hlen⟩ := hp.sectors
  have hone := vhdxComputeDescSectors_one hk
  rw [vhdxLogReadDesc, vhdxLogPeekHdr_eq hp hread hne, hat.peek (by omega)]
  simp only [bind, Except.bind]
  rw [he.hdr_valid hseq (by omega), if_neg (by simp), he.descriptorCount, hone,
    readSectors_one hp hread hne]
  simp only [ne_eq, not_true_eq_false, if_false]
  rw [if_pos]
  rw [List.all_eq_true]
  intro i hi
  have hik : i < k := List.mem_range.mp hi
  rw [descAt_congr fun a ha => hbuf _ (by omega), he.desc i hik, vhdxLogDescIsValid,
    he.sequenceNumber]
  exact decide_eq_true ⟨rfl, by dsimp only [rawDescriptor]; omega, .inr rfl⟩

/-- With more descriptors than one sector has, what is behind the first sector of the buffer
is never read. -/
theorem vhdxLogReadDesc_long (hk : 126 < k) (hat : EntryAt s.file log w b (vhdxComputeDescSectors k
      + k)) (hfit : vhdxComputeDescSectors k + k < log.length / 4096)
    (hread : log.read = logSlot log w) (hne : ∀ j < vhdxComputeDescSectors k, logSlot log (w + j) ≠
      log.write) : vhdxLogReadDesc (fun _ => 0) s log = .error .einval := by
  have hpos := vhdxComputeDescSectors_pos k
  have hne0 := hne 0 hpos
  obtain ⟨buf, hrun, hbuf⟩ := readSectorsLoop_many (f := s.file) hp (vhdxComputeDescSectors k) 0 w
    (fun _ => 0) hne
  have hzero : (descAt buf 126).sequenceNumber = 0 := by
    have hcongr : descAt buf 126 = descAt (fun _ => 0) 126 :=
      descAt_congr fun a ha => hbuf _ (by omega)
    rw [hcongr]
    rfl
  rw [vhdxLogReadDesc, vhdxLogPeekHdr_eq hp hread hne0, hat.peek (by omega)]
  simp only [bind, Except.bind]
  rw [he.hdr_valid hseq (by omega), if_neg (by simp), he.descriptorCount, vhdxLogReadSectors,
    hread, hrun]
  rw [if_neg (not_not.mpr (zero_add _)), if_neg]
  rw [List.all_eq_true]
  intro hall
  have hvalid := hall 126 (List.mem_range.mpr hk)
  rw [vhdxLogDescIsValid, he.sequenceNumber] at hvalid
  exact hseq ((of_decide_eq_true hvalid).1.symm.trans hzero)

/-! ## Writing the sectors -/

end

theorem vhdxLogFlushDesc_spec {f data} (hseq : seq < 2 ^ 64)
    (hdata : ∀ a < 4096, data a = dataSector seq raw a) :
    ∃ buf, vhdxLogFlushDesc f (rawDescriptor seq fo raw) data junk = .ok (f.pwrite fo buf 4096) ∧
      ∀ a < 4096, buf a = raw a := by
  have hhigh : getLe (data.drop 4) 4 = seq / 2 ^ 32 := by
    rw [getLe_eq_of_leBytes (x := seq / 2 ^ 32) fun i hi => ?_, Nat.mod_eq_of_lt (by omega)]
    rw [Bytes.drop_apply, hdata _ (by omega), dataSector, if_neg (by omega), if_pos (by omega),
      Nat.add_sub_cancel_left]
  have hlow : getLe (data.drop 4092) 4 = seq % 2 ^ 32 := by
    refine getLe_eq_of_leBytes fun i hi => ?_
    rw [Bytes.drop_apply, hdata _ (by omega), dataSector, if_neg (by omega), if_neg (by omega),
      if_neg (by omega), Nat.add_sub_cancel_left]
  refine ⟨memcpy (memcpy (memcpy junk 0 (leBytes (getLe raw 8)) 8) 8 (data.drop 8) 4084) 4092
    (leBytes (getLe (raw.drop 4092) 4)) 4, ?_, ?_⟩
  · have heq : seq / 2 ^ 32 * 2 ^ 32 + seq % 2 ^ 32 = (rawDescriptor seq fo raw).sequenceNumber :=
      Nat.div_add_mod' seq (2 ^ 32)
    rw [vhdxLogFlushDesc, hhigh, hlow, if_neg (not_not.mpr heq)]
    rfl
  · intro a ha
    rcases lt_or_ge a 8 with h8 | h8
    · rw [memcpy_of_lt (by omega), memcpy_of_lt h8, memcpy_zero_of_lt h8]
      exact leBytes_getLe h8
    · rcases lt_or_ge a 4092 with h4 | h4
      · obtain ⟨i, rfl⟩ := Nat.exists_eq_add_of_le h8
        rw [memcpy_of_lt h4, memcpy_add (by omega), Bytes.drop_apply, hdata _ ha, dataSector,
          if_neg (by omega), if_neg (by omega), if_pos h4]
      · obtain ⟨i, rfl⟩ := Nat.exists_eq_add_of_le h4
        rw [memcpy_add (by omega), leBytes_getLe (by omega), Bytes.drop_apply]

/-- The sectors of the entry from number `i` on are written to the file. -/
theorem flushDescs_spec {desc} (hp : log.Placed)
    (he : IsEntry crc32cTable b k seq s.guid len fo raw) (hseq : seq < 2 ^ 64) (hk : k ≤ 126)
    (hdesc : ∀ a < 4096, desc a = b a)
    (hout : fo + 4096 * k ≤ log.offset ∨ log.offset + log.length ≤ fo)
    (hne : ∀ j < 1 + k, logSlot log (w + j) ≠ log.write) :
    ∀ m i f data, i + m = k → EntryAt f log w b (1 + k) →
    ∃ f', flushDescs junk desc m i f { log with read := logSlot log (w + 1 + i) } data =
        .ok (f', { log with read := logSlot log (w + 1 + k) }) ∧
      f.len ≤ f'.len ∧ f'.len ≤ max f.len (fo + 4096 * k) ∧
      ∀ a, f'.bytes a =
        if fo + 4096 * i ≤ a ∧ a < fo + 4096 * k then raw (a - fo) else f.bytes a
  | 0, i, f, data, him, _ => by
    obtain rfl : i = k := him
    refine ⟨f, rfl, le_rfl, le_max_left _ _, fun a => ?_⟩
    rw [if_neg (by omega)]
  | m + 1, i, f, data, him, hat => by
    have hik : i < k := by omega
    have hne' := hne (1 + i) (by omega)
    rw [← add_assoc] at hne'
    have hdescI : descAt desc i = rawDescriptor seq (fo + 4096 * i) (raw.drop (4096 * i)) := by
      rw [descAt_congr fun a ha => hdesc _ (by omega), he.desc i hik]
    obtain ⟨data', hdata'⟩ : ∃ d, d =
      memcpy data 0 (f.bytes.drop (log.offset + logSlot log (w + 1 + i))) 4096 := ⟨_, rfl⟩
    have hsector : ∀ a < 4096, data' a = dataSector seq (raw.drop (4096 * i)) a := by
      intro a ha
      have hone := vhdxComputeDescSectors_one hk
      have hmem := hat (1 + i) (by omega) a ha
      have hdata := he.data i hik a ha
      rw [hdata', memcpy_zero_of_lt ha, ← hdata]
      rw [← add_assoc] at hmem
      exact hmem.trans (congrArg b (by omega))
    obtain ⟨buf, hflush, hbuf⟩ := @vhdxLogFlushDesc_spec (raw.drop (4096 * i)) junk seq
      (fo + 4096 * i) f data' hseq hsector
    obtain ⟨f', hrun, hlen, hlen', hbytes⟩ := flushDescs_spec hp he hseq hk hdesc hout hne m (i + 1)
      (f.pwrite (fo + 4096 * i) buf 4096) data' (by omega) (hat.pwrite hp (by omega))
    refine ⟨f', ?_, (le_max_left _ _).trans hlen, ?_, fun a => ?_⟩
    · rw [flushDescs, hdescI, readSectors_at hp hne', if_neg (not_not.mpr rfl), ← hdata', hflush]
      exact hrun
    · rw [VhdxFile.pwrite_len] at hlen'
      omega
    · rw [hbytes, VhdxFile.pwrite_bytes]
      by_cases hlater : fo + 4096 * (i + 1) ≤ a ∧ a < fo + 4096 * k
      · rw [if_pos hlater, if_pos (by omega)]
      · rw [if_neg hlater]
        by_cases hthis : fo + 4096 * i ≤ a ∧ a < fo + 4096 * k
        · obtain ⟨c, rfl⟩ := Nat.exists_eq_add_of_le hthis.1
          rw [if_pos hthis, memcpy_add (by omega), hbuf _ (by omega)]
          exact congrArg raw (by omega)
        · rw [if_neg hthis]
          rcases lt_or_ge a (fo + 4096 * i) with hlt | hge
          · exact memcpy_of_lt hlt
          · exact memcpy_of_ge (by omega)

section

variable (hp : log.Placed) (he : IsEntry crc32cTable b k seq s.guid len fo raw) (hseq : seq ≠ 0)
include hp he hseq

/-- An entry of one descriptor sector is flushed. -/
theorem flushEntry_spec (hseq' : seq < 2 ^ 64) (hfo : fo % 4096 = 0) (hk : k ≤ 126)
    (hat : EntryAt s.file log w b (1 + k)) (hread : log.read = logSlot log w)
    (hne : ∀ j < 1 + k, logSlot log (w + j) ≠ log.write) (hout : fo + 4096 * k ≤ log.offset ∨
      log.offset + log.length ≤ fo) (hlen : len ≤ s.file.len) :
    ∃ f', flushEntry junk s log = .ok (f', { log with read := logSlot log (w + 1 + k) }) ∧
      f'.len ≤ max s.file.len (fo + 4096 * k) ∧
      ∀ a, f'.bytes a =
        if fo ≤ a ∧ a < fo + 4096 * k then raw (a - fo) else s.file.bytes a := by
  have hne0 := hne 0 (by omega)
  obtain ⟨desc, hdesc, hbuf, hhdr⟩ := @vhdxLogReadDesc_spec crc32cTable log s b raw junk w k seq len
    fo hp he hseq hfo hk hat hread hne0
  obtain ⟨f', hrun, hge, hle, hbytes⟩ := @flushDescs_spec crc32cTable log s b raw junk w k seq len
    fo desc hp he hseq' hk hbuf hout hne k 0 s.file junk (zero_add k) hat
  refine ⟨f', ?_, hle, fun a => ?_⟩
  · rw [flushEntry, vhdxLogPeekHdr_eq hp hread hne0, hat.peek (by omega)]
    simp only [bind, Except.bind]
    rw [he.flushedFileOffset, if_neg (Nat.not_lt.mpr hlen), hdesc]
    dsimp only
    rw [hhdr, he.descriptorCount, hrun, he.lastFileOffset]
    dsimp only
    rw [VhdxFile.extend, if_neg fun h => by omega]
  · rw [hbytes]
    rfl

/-- An entry of more descriptor sectors is refused. -/
theorem flushEntry_long (hk : 126 < k) (hat : EntryAt s.file log w b (vhdxComputeDescSectors k + k))
    (hfit : vhdxComputeDescSectors k + k < log.length / 4096) (hread : log.read = logSlot log w)
    (hne : ∀ j < vhdxComputeDescSectors k, logSlot log (w + j) ≠ log.write)
    (hlen : len ≤ s.file.len) : flushEntry (fun _ => 0) s log = .error .einval := by
  have hpos := vhdxComputeDescSectors_pos k
  have hne0 := hne 0 hpos
  rw [flushEntry, vhdxLogPeekHdr_eq hp hread hne0, hat.peek (by omega)]
  simp only [bind, Except.bind]
  rw [he.flushedFileOffset, if_neg (Nat.not_lt.mpr hlen),
    vhdxLogReadDesc_long hp he hseq hk hat hfit hread hne]

end

end Desc

end QemuArm
