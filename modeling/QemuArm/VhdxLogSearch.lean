import QemuArm.VhdxLogReplay

/-!
# Finding a VHDX log entry

`vhdxLogSearch_spec` : in a log where one sector starts an entry and no other sector passes as
the start of one, `vhdx_log_search` finds that entry.
-/

namespace QemuArm

open LogEntryHeader Nat

/-! ## Checksums -/

section Checksum

variable {crc32cTable : BitVec 8 → BitVec 32}

theorem crc32cLoop_congr : ∀ (n : ℕ) (crc : BitVec 32) {b c : Bytes}, (∀ i < n, b i = c i) →
    crc32cLoop crc32cTable crc b n = crc32cLoop crc32cTable crc c n
  | 0, _, _, _, _ => rfl
  | n + 1, crc, b, c, h => by
    rw [crc32cLoop, h 0 (succ_pos n)]
    exact crc32cLoop_congr n _ fun i hi => h (1 + i) (by omega)

theorem crc32cLoop_add : ∀ m n crc b,
    crc32cLoop crc32cTable crc b (m + n) =
      crc32cLoop crc32cTable (crc32cLoop crc32cTable crc b m) (b.drop m) n
  | 0, n, crc, b => by
    rw [zero_add]
    exact crc32cLoop_congr n crc fun i _ => congrArg b (zero_add i).symm
  | m + 1, n, crc, b => by
    rw [add_right_comm, crc32cLoop, crc32cLoop, crc32cLoop_add m n, Bytes.drop_drop, add_comm 1 m]

/-- `crc32c` inverts its result, and the callers invert it back to go on. -/
theorem crc32c_xor (crc : BitVec 32) (b : Bytes) (n : ℕ) :
    crc32c crc32cTable crc b n ^^^ 0xffffffff = crc32cLoop crc32cTable crc b n := by
  rw [crc32c, BitVec.xor_assoc, BitVec.xor_self, BitVec.xor_zero]

variable {log : VhdxLog} {f : VhdxFile} {b : Bytes} {w t : ℕ}

/-- The sectors of the entry from number `i` on. -/
theorem checksumSectors_spec (hp : log.Placed) (hat : EntryAt f log w b t)
    (hne : ∀ j < t, logSlot log (w + j) ≠ log.write) :
    ∀ m i crc buf, i + m = t →
    checksumSectors crc32cTable f m { log with read := logSlot log (w + i) } crc buf =
      ({ log with read := logSlot log (w + t) },
        some (crc32cLoop crc32cTable crc (b.drop (4096 * i)) (4096 * m)))
  | 0, i, crc, buf, him => by
    obtain rfl : i = t := him
    rfl
  | m + 1, i, crc, buf, him => by
    obtain ⟨buf', hbuf'⟩ : ∃ d, d =
      memcpy buf 0 (f.bytes.drop (log.offset + logSlot log (w + i))) 4096 := ⟨_, rfl⟩
    have hbuf : ∀ a < 4096, buf' a = (b.drop (4096 * i)) a := by
      intro a ha
      rw [hbuf', memcpy_zero_of_lt ha]
      exact hat i (by omega) a ha
    rw [checksumSectors, readSectors_at hp (hne i (by omega)), ← hbuf']
    dsimp only
    rw [if_neg (not_not.mpr rfl), crc32c_xor]
    have hrest := checksumSectors_spec hp hat hne m (i + 1)
      (crc32cLoop crc32cTable crc buf' 4096) buf' (by omega)
    rw [crc32cLoop_congr 4096 crc hbuf] at hrest ⊢
    rw [show 4096 * (m + 1) = 4096 + 4096 * m by ring, crc32cLoop_add, Bytes.drop_drop,
      show 4096 * i + 4096 = 4096 * (i + 1) by ring]
    exact hrest

end Checksum

/-! ## Validating -/

section Search

variable {crc32cTable : BitVec 8 → BitVec 32} {s : VhdxState} {log : VhdxLog} {b raw junk : Bytes}
  {q w k seq len fo : ℕ}

/-- No entry starts in sector `q`. -/
def NoEntryAt (s : VhdxState) (log : VhdxLog) (q : ℕ) : Prop :=
  vhdxLogHdrIsValid log (LogEntryHeader.get (s.file.bytes.drop (log.offset + logSlot log q)))
    s.guid = false

theorem vhdxValidateLogEntry_none (hp : log.Placed) (hread : log.read = logSlot log q)
    (hne : logSlot log q ≠ log.write) (hno : NoEntryAt s log q) (prev : ℕ) :
    vhdxValidateLogEntry crc32cTable junk s log prev =
      .ok ({ log with read := logSlot log (q + 1) }, none) := by
  rw [vhdxValidateLogEntry, vhdxLogPeekHdr_eq hp hread hne]
  simp only [bind, Except.bind]
  rw [if_pos (.inl hno), hread, vhdxLogIncIdx_logSlot hp]

theorem vhdxValidateLogEntry_some (hp : log.Placed)
    (he : IsEntry crc32cTable b k seq s.guid len fo raw) (hseq : seq ≠ 0) (hfo : fo % 4096 = 0)
    (hk : k ≤ 126) (hat : EntryAt s.file log w b (1 + k)) (hread : log.read = logSlot log w)
    (hne : ∀ j < 1 + k, logSlot log (w + j) ≠ log.write) :
    vhdxValidateLogEntry crc32cTable junk s log 0 =
      .ok ({ log with read := logSlot log (w + (1 + k)) }, some (get b)) := by
  obtain ⟨hn, hlen⟩ := hp.sectors
  have hone := vhdxComputeDescSectors_one hk
  have hne0 := hne 0 (by omega)
  obtain ⟨desc, hdesc, hbuf, hhdr⟩ := @vhdxLogReadDesc_spec crc32cTable log s b raw junk w k seq len
    fo hp he hseq hfo hk hat hread hne0
  have hcrc := @checksumSectors_spec crc32cTable log s.file b w (1 + k) hp hat hne k 1
    (crc32cLoop crc32cTable 0xffffffff (clearChecksum desc) 4096) junk (by omega)
  rw [vhdxValidateLogEntry, vhdxLogPeekHdr_eq hp hread hne0, hat.peek (by omega)]
  simp only [bind, Except.bind]
  rw [if_neg (by simp [he.hdr_valid hseq (by omega : _ ≤ log.length)]), hdesc, he.descriptorCount,
    he.entryLength, hone]
  dsimp only
  rw [hhdr, crc32c_xor, Nat.mul_div_cancel _ (by decide), Nat.add_sub_cancel_left, hcrc]
  rw [if_pos]
  -- the two parts of the checksum are those of the whole entry
  have hfirst : crc32cLoop crc32cTable 0xffffffff (clearChecksum desc) 4096 =
      crc32cLoop crc32cTable 0xffffffff (clearChecksum b) 4096 := by
    refine crc32cLoop_congr 4096 _ fun a ha => ?_
    simp only [clearChecksum, memcpy, hbuf a ha]
  have hsecond : ∀ crc, crc32cLoop crc32cTable crc (b.drop 4096) (4096 * k) =
      crc32cLoop crc32cTable crc ((clearChecksum b).drop 4096) (4096 * k) := fun crc =>
    crc32cLoop_congr _ crc fun a _ => by
      rw [Bytes.drop_apply, Bytes.drop_apply, clearChecksum, memcpy_of_ge (by omega)]
  rw [he.checksum, hone, crc32c, Option.map_some, hfirst, hsecond, ← crc32cLoop_add]
  rw [show (1 + k) * 4096 = 4096 + 4096 * k by ring]

/-! ## Searching -/

variable {heap : ℕ → ℕ → Bytes}

/-- The log with its position at sector `q`, as the search has it. -/
def searchAt (s : VhdxState) (q : ℕ) : VhdxLog :=
  { s.log with read := logSlot s.log q, write := s.log.length }

theorem searchAt_placed (hp : s.log.Placed) (q : ℕ) : (searchAt s q).Placed :=
  hp.congr rfl rfl

theorem searchAt_ne (hp : s.log.Placed) (q i : ℕ) :
    logSlot (searchAt s q) i ≠ (searchAt s q).write := by
  have hle := @logSlot_le s.log i hp
  have hslot : logSlot (searchAt s q) i = logSlot s.log i := rfl
  have hwrite : (searchAt s q).write = s.log.length := rfl
  omega

/-- A sector without an entry is passed. -/
theorem searchLoop_none (hp : s.log.Placed) (hno : NoEntryAt s s.log q)
    (candidate : Option LogSequence) (fuel : ℕ) :
    searchLoop crc32cTable heap s (fuel + 1) (searchAt s q) candidate =
      if logSlot s.log (q + 1) < logSlot s.log q then .ok candidate
      else searchLoop crc32cTable heap s fuel (searchAt s (q + 1)) candidate := by
  have hval := @vhdxValidateLogEntry_none crc32cTable s (searchAt s q) (heap (fuel + 1) 0) q
    (searchAt_placed hp q) rfl (searchAt_ne hp q q) hno 0
  rw [searchLoop, hval]
  rfl

/-- The sectors before the entry. -/
theorem searchLoop_before (hp : s.log.Placed) (hw : w < s.log.length / 4096)
    (hno : ∀ q, q % (s.log.length / 4096) ≠ w → NoEntryAt s s.log q) (fuel : ℕ) :
    ∀ d ≤ w, searchLoop crc32cTable heap s (fuel + d) (searchAt s (w - d)) none =
      searchLoop crc32cTable heap s fuel (searchAt s w) none
  | 0, _ => rfl
  | d + 1, hd => by
    rw [← add_assoc, searchLoop_none hp (hno _ ?_), if_neg,
      show w - (d + 1) + 1 = w - d by omega, searchLoop_before hp hw hno fuel d (by omega)]
    · rw [logSlot_of_lt (by omega), logSlot_of_lt (by omega)]
      omega
    · rw [mod_eq_of_lt (by omega)]
      omega

/-- The sectors after the entry. -/
theorem searchLoop_after (hp : s.log.Placed)
    (hno : ∀ q, q % (s.log.length / 4096) ≠ w → NoEntryAt s s.log q) (c : LogSequence) :
    ∀ m q fuel, q + m + 1 = s.log.length / 4096 → w < q → m < fuel →
      searchLoop crc32cTable heap s fuel (searchAt s q) (some c) = .ok (some c)
  | _, _, 0, _, _, hfuel => absurd hfuel (not_lt_zero _)
  | 0, q, fuel + 1, hq, hwq, _ => by
    rw [searchLoop_none hp (hno q (by rw [mod_eq_of_lt (by omega)]; omega)), if_pos]
    rw [logSlot, ← hq, mod_self, logSlot_of_lt (by omega)]
    omega
  | m + 1, q, fuel + 1, hq, hwq, hfuel => by
    rw [searchLoop_none hp (hno q (by rw [mod_eq_of_lt (by omega)]; omega)), if_neg]
    · exact searchLoop_after hp hno c m (q + 1) fuel (by omega) (by omega) (by omega)
    · rw [logSlot_of_lt (by omega), logSlot_of_lt (by omega)]
      omega

/-- What the search returns for the entry. -/
def foundSequence (s : VhdxState) (w k : ℕ) (b : Bytes) : LogSequence :=
  ⟨{ s.log with read := logSlot s.log w, write := logSlot s.log (w + (1 + k)) }, 1,
    LogEntryHeader.get b⟩

section

variable (hp : s.log.Placed) (hw : w < s.log.length / 4096) (hno : ∀ q, q % (s.log.length / 4096) ≠
    w → NoEntryAt s s.log q) (he : IsEntry crc32cTable b k seq s.guid len fo raw) (hseq : seq ≠ 0)
  (hfo : fo % 4096 = 0) (hk : k ≤ 126) (hat : EntryAt s.file s.log w b (1 + k))
include hp hw hno he hseq hfo hk hat

/-- The search finds the entry. -/
theorem searchLoop_found {fuel} (hfuel : s.log.length / 4096 ≤ fuel + w + 1) :
    searchLoop crc32cTable heap s (fuel + 1) (searchAt s w) none =
      .ok (some (foundSequence s w k b)) := by
  obtain ⟨hn, hlen⟩ := hp.sectors
  have hval := @vhdxValidateLogEntry_some crc32cTable s (searchAt s w) b raw (heap (fuel + 1) 0) w k
    seq len fo (searchAt_placed hp w) he hseq hfo hk hat rfl fun j _ => searchAt_ne hp w (w + j)
  -- less than one round on there is another sector
  have hother : (w + (1 + k)) % (s.log.length / 4096) ≠ w := by
    intro heq
    refine @logSlot_ne s.log w (w + (1 + k)) (by omega) (by omega) ?_
    rw [logSlot, logSlot, heq, mod_eq_of_lt hw]
  have hnext : vhdxValidateLogEntry crc32cTable (heap (fuel + 1) ((searchAt s w).length / 4096 + 1))
      s { searchAt s w with read := logSlot (searchAt s w) (w + (1 + k)) } 0 =
        .ok (searchAt s (w + (1 + k) + 1), none) :=
    vhdxValidateLogEntry_none (searchAt_placed hp (w + (1 + k))) rfl (searchAt_ne hp _ _)
      (hno _ hother) 0
  have hstep : searchLoop crc32cTable heap s (fuel + 1) (searchAt s w) none =
      if logSlot s.log (w + (1 + k) + 1) < logSlot s.log w then .ok (some (foundSequence s w k b))
      else searchLoop crc32cTable heap s fuel (searchAt s (w + (1 + k) + 1))
        (some (foundSequence s w k b)) := by
    have hentries : searchEntries crc32cTable (heap (fuel + 1)) s
        ((searchAt s w).length / 4096 + 1)
        { searchAt s w with read := logSlot (searchAt s w) (w + (1 + k)) } 0
        ⟨{ searchAt s w with
            read := (searchAt s w).read
            write := logSlot (searchAt s w) (w + (1 + k)) }, 1, get b⟩ =
          .ok (searchAt s (w + (1 + k) + 1), foundSequence s w k b) := by
      rw [searchEntries, hnext]
      rfl
    rw [searchLoop, hval]
    simp only [bind, Except.bind]
    rw [hentries]
    rfl
  rw [hstep]
  by_cases hwrap : w + (1 + k) + 1 < s.log.length / 4096
  · rw [if_neg]
    · exact searchLoop_after hp hno _ (s.log.length / 4096 - (w + (1 + k) + 1) - 1) _ _
        (by omega) (by omega) (by omega)
    · rw [logSlot_of_lt hwrap, logSlot_of_lt hw]
      omega
  · rw [if_pos]
    rw [logSlot, mod_eq_sub_mod (by omega), mod_eq_of_lt (by omega), logSlot_of_lt hw]
    omega

theorem vhdxLogSearch_spec :
    vhdxLogSearch crc32cTable heap s = .ok (some (foundSequence s w k b)) := by
  have hstart : { s.log with read := 0, write := s.log.length } = searchAt s (w - w) := by
    rw [searchAt, Nat.sub_self, logSlot, Nat.zero_mod]
  have hbefore := @searchLoop_before crc32cTable s w heap hp hw hno
    (s.log.length / 4096 - w + 1) w le_rfl
  rw [vhdxLogSearch, hstart,
    show s.log.length / 4096 + 1 = s.log.length / 4096 - w + 1 + w by omega, hbefore]
  exact searchLoop_found hp hw hno he hseq hfo hk hat (by omega)

end

end Search

end QemuArm
