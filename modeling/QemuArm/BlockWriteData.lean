import QemuArm.BlockSerialise

/-!
# Writes are atomic and byte exact

A write that is not aligned reads the rest of its first and last block and writes it back.
`unaligned_writes` : once all requests have completed, every byte that writes cover has the
data of one of them and every other byte is unchanged, for writes that meet `WriteOk`. A
zero write must be aligned for it : the padding uses its vector, which is `NULL`
(`unaligned_zero_write`).

The bytes of the padding stay what they were read as, since no other request that may write
them is past its wait (`WriteInv.device_of_ne`).
-/

namespace QemuArm

open List Option Function BlockCo BlockState Nat

/-! ## Alignment -/

section Align

variable {n m d : ℕ}

theorem alignDown_add_mod (n d : ℕ) : alignDown n d + n % d = n := div_add_mod' n d

theorem alignDown_mod (n d : ℕ) : alignDown n d % d = 0 := mul_mod_left _ _

theorem alignDown_of_mod_eq_zero (h : n % d = 0) : alignDown n d = n := by
  have := alignDown_add_mod n d
  omega

theorem roundUp_mod (n d : ℕ) : roundUp n d % d = 0 := mul_mod_left _ _

theorem le_roundUp (hd : 0 < d) (n : ℕ) : n ≤ roundUp n d := by
  have h1 := div_add_mod' (n + d - 1) d
  have h2 := mod_lt (n + d - 1) hd
  unfold roundUp
  omega

/-- At least one block, unless there is nothing. -/
theorem roundUp_ge (hd : 0 < d) (h : 0 < n) : d ≤ roundUp n d :=
  le_of_dvd (h.trans_le (le_roundUp hd n)) (dvd_mul_left _ _)

theorem alignDown_le_alignDown (h : n ≤ m) : alignDown n d ≤ alignDown m d :=
  Nat.mul_le_mul_right d (Nat.div_le_div_right h)

theorem roundUp_mul_add (hd : 0 < d) (k n : ℕ) : roundUp (k * d + n) d = k * d + roundUp n d := by
  unfold roundUp
  rw [show k * d + n + d - 1 = n + d - 1 + k * d by omega, add_mul_div_right _ _ hd,
    add_mul, add_comm]

/-- Rounding up adds what is missing to a block. -/
theorem roundUp_eq (hd : 0 < d) (h : n % d ≠ 0) : roundUp n d = n + (d - n % d) := by
  have h1 := div_add_mod' n d
  have h2 := mod_lt n hd
  have h3 : roundUp (n % d) d = d := by
    unfold roundUp
    rw [show n % d + d - 1 = n % d - 1 + 1 * d by omega, add_mul_div_right _ _ hd,
      div_eq_of_lt (by omega), zero_add, one_mul]
  rw [← h1, roundUp_mul_add hd, h3, h1]
  omega

theorem roundUp_of_mod_eq_zero (hd : 0 < d) (h : n % d = 0) : roundUp n d = n := by
  obtain ⟨k, rfl⟩ := dvd_of_mod_eq_zero h
  rw [roundUp, Nat.add_sub_assoc hd, mul_add_div hd, div_eq_of_lt (sub_one_lt hd.ne'), add_zero,
    mul_comm]

/-- The end of the last block, from the start of the first one. -/
theorem roundUp_add (hd : 0 < d) (n m : ℕ) :
    roundUp (n + m) d = alignDown n d + roundUp (m + n % d) d := by
  have h1 := alignDown_add_mod n d
  have h2 := roundUp_mul_add hd (n / d) (m + n % d)
  unfold alignDown at *
  rw [← h2]
  congr 1
  omega

end Align

/-! ## What a write covers -/

/-- A request writes the byte at `a`. -/
def BlockCo.Covers (co : BlockCo) (a : ℕ) : Prop :=
  co.isWrite = true ∧ co.offset₀ ≤ a ∧ a < co.offset₀ + co.bytes₀

instance (co : BlockCo) (a : ℕ) : Decidable (co.Covers a) := inferInstanceAs (Decidable (_ ∧ _))

/-- The data that it has for the byte. -/
def BlockCo.value (co : BlockCo) (a : ℕ) : DiskByte :=
  match co.qiov with
  | some qiov => qiov.getD (a - co.offset₀) 0
  | none => 0

/-- The size of the vector is that of the request, what the code computes for the padded
length fits in an `unsigned int`, and a request without a vector is aligned. -/
structure WriteOk (align offset bytes : ℕ) (qiov : Option (List DiskByte)) : Prop where
  size : ∀ q, qiov = some q → q.length = bytes
  fits : roundUp (bytes + offset % align) align < 2 ^ 32
  zero : qiov = none → offset % align = 0 ∧ bytes % align = 0

/-! ## The locals of a write -/

/-- The vector is the data of the request, with the bytes of the device around it, and the
request keeps the range for itself. -/
structure Local (align : ℕ) (device : ℕ → DiskByte) (req : BdrvTrackedRequest) (co : BlockCo) :
    Prop where
  ok : WriteOk align co.offset₀ co.bytes₀ co.qiov
  isWrite : co.isWrite = true
  reqOffset : req.offset = co.offset₀
  reqBytes : req.bytes = co.bytes₀
  fresh : req.serialising = false → req.overlapOffset = co.offset₀ ∧ req.overlapBytes = co.bytes₀
  marked : req.serialising = true → req.overlapOffset = alignDown co.offset₀ align ∧
    req.overlapBytes = roundUp (co.bytes₀ + co.offset₀ % align) align
  kept : co.localQiov ≠ none → req.serialising = true ∧ co.qiov ≠ none
  plain : co.localQiov = none → co.offset = co.offset₀ ∧ co.bytes = co.bytes₀
  size : ∀ q, co.localQiov = some q → q.length = co.bytes
  payload : ∀ i < co.bytes, co.byteAt i =
    if co.Covers (co.offset + i) then co.value (co.offset + i) else device (co.offset + i)

/-- The buffer has what the driver has read so far. -/
def Fetched (align base : ℕ) (device : ℕ → DiskByte) (buf : List DiskByte) (left : List ℕ) : Prop :=
  buf.length = align ∧ ∀ i < align, i ∉ left → buf.getD i 0 = device (base + i)

/-- The head has been dealt with. -/
def BlockCo.Joined (align : ℕ) (co : BlockCo) : Prop :=
  co.offset = alignDown co.offset₀ align ∧ co.bytes = co.bytes₀ + co.offset₀ % align

/-- The head and the tail have been dealt with. -/
def BlockCo.Padded (align : ℕ) (co : BlockCo) : Prop :=
  co.offset = alignDown co.offset₀ align ∧ co.bytes = roundUp (co.bytes₀ + co.offset₀ % align) align

/-- What is known of the locals where the coroutine stands. -/
def ShapeOk (align : ℕ) (device : ℕ → DiskByte) (co : BlockCo) : Prop :=
  match co.pc with
  | .head => co.localQiov = none
  | .headWait | .headReadWait => co.localQiov = none ∧ co.offset₀ % align ≠ 0
  | .headRead buf left => co.localQiov = none ∧ co.offset₀ % align ≠ 0 ∧
      Fetched align (alignDown co.offset align) device buf left
  | .tail => co.Joined align
  | .tailWait _ | .tailReadWait => co.Joined align ∧ (co.offset + co.bytes) % align ≠ 0
  | .tailRead buf left => co.Joined align ∧ (co.offset + co.bytes) % align ≠ 0 ∧
      Fetched align (alignDown (co.offset + co.bytes) align) device buf left
  | .writeWait _ => co.Padded align
  | .write left => co.Padded align ∧ ∀ i ∈ left, i < co.bytes
  | _ => True

/-- The write has put its data for the byte on the device. -/
def BlockCo.Applied (co : BlockCo) (a : ℕ) : Prop :=
  match co.pc with
  | .done ok => ok = true
  | .write left => a - co.offset ∉ left
  | _ => False

/-- The arguments of the request. -/
def BlockCo.SameArgs (co co' : BlockCo) : Prop :=
  co'.isWrite = co.isWrite ∧ co'.offset₀ = co.offset₀ ∧ co'.bytes₀ = co.bytes₀ ∧ co'.qiov = co.qiov

variable {co co' : BlockCo}

theorem BlockCo.SameArgs.covers (h : co.SameArgs co') (a : ℕ) : co'.Covers a ↔ co.Covers a := by
  obtain ⟨h1, h2, h3, -⟩ := h
  unfold Covers
  rw [h1, h2, h3]

theorem BlockCo.SameArgs.value (h : co.SameArgs co') (a : ℕ) : co'.value a = co.value a := by
  obtain ⟨-, h2, -, h4⟩ := h
  unfold BlockCo.value
  rw [h2, h4]

structure WriteInv (align : ℕ) (init : ℕ → DiskByte) (s : BlockState) : Prop where
  block : BlockInv align s
  aborted : s.aborted = none
  writes : ∀ r, (s.co r).isWrite = true → (s.co r).pc.Writing ∨ ∃ ok, (s.co r).pc = .done ok
  locals : ∀ r, (s.co r).pc.Writing →
    Local align s.device (s.tracker.req r) (s.co r) ∧ ShapeOk align s.device (s.co r)
  known : ∀ a, s.device a = init a ∨ ∃ r, (s.co r).Covers a ∧ s.device a = (s.co r).value a
  applied : ∀ r a, (s.co r).Covers a → (s.co r).Applied a →
    ∃ r', (s.co r').Covers a ∧ s.device a = (s.co r').value a

variable {t' : Tracker} {running : Option ℕ}

section Steps

variable {align : ℕ} {bl : BlockLimits} {init : ℕ → DiskByte} {s s' : BlockState} {r : ℕ}

theorem WriteInv.isWrite_eq_false (h : WriteInv align init s) (hw : ¬(s.co r).pc.Writing)
    (hdone : ∀ ok, (s.co r).pc ≠ .done ok) : (s.co r).isWrite = false := by
  refine Bool.eq_false_of_not_eq_true fun hr => ?_
  rcases h.writes r hr with hr | ⟨ok, hok⟩
  · exact hw hr
  · exact hdone ok hok

/-- A step of the request `r`, which changes the device only to what the request has for it. A
request that starts has new arguments. -/
theorem WriteInv.of_step {device : ℕ → DiskByte} (h : WriteInv align init s) (hb : BlockInv align
      { s with tracker := t', co := update s.co r co', running := running, device := device })
    (hothers : ∀ x ≠ r, (s.co x).pc.Writing →
      Local align device (t'.req x) (s.co x) ∧ ShapeOk align device (s.co x))
    (hargs : (s.co r).isWrite = true ∨ (∃ a, co'.Applied a) → (s.co r).SameArgs co')
    (hwrites : co'.isWrite = true → co'.pc.Writing ∨ ∃ ok, co'.pc = .done ok)
    (hlocal : co'.pc.Writing → Local align device (t'.req r) co' ∧ ShapeOk align device co')
    (hbyte : ∀ a, device a = s.device a ∧ ((s.co r).Covers a → co'.Applied a →
      (s.co r).Applied a) ∨ co'.Covers a ∧ device a = co'.value a) :
    WriteInv align init
      { s with tracker := t', co := update s.co r co', running := running, device := device } := by
  have hsame : ∀ x a, (s.co x).Covers a → (update s.co r co' x).Covers a ∧
      (update s.co r co' x).value a = (s.co x).value a := by
    intro x a hc
    by_cases hx : x = r
    · rw [hx] at hc ⊢
      rw [update_self]
      exact ⟨((hargs (.inl hc.1)).covers a).2 hc, (hargs (.inl hc.1)).value a⟩
    · rw [update_of_ne hx]
      exact ⟨hc, rfl⟩
  refine ⟨hb, h.aborted, fun x => ?_, fun x => ?_, fun a => ?_, fun x a hc ha => ?_⟩
  all_goals dsimp only at *
  · by_cases hx : x = r
    · rw [hx, update_self]
      exact hwrites
    · rw [update_of_ne hx]
      exact h.writes x
  · by_cases hx : x = r
    · rw [hx, update_self]
      exact hlocal
    · rw [update_of_ne hx]
      exact hothers x hx
  · rcases hbyte a with ⟨hdev, -⟩ | hnew
    · rw [hdev]
      exact (h.known a).imp id fun ⟨x, hx, hv⟩ =>
        ⟨x, (hsame x a hx).1, hv.trans (hsame x a hx).2.symm⟩
    · exact .inr ⟨r, by rwa [update_self]⟩
  · rcases hbyte a with ⟨hdev, happ⟩ | hnew
    · obtain ⟨hc', ha'⟩ : (s.co x).Covers a ∧ (s.co x).Applied a := by
        by_cases hx : x = r
        · rw [hx, update_self] at hc ha
          rw [hx]
          have hc' := ((hargs (.inr ⟨a, ha⟩)).covers a).1 hc
          exact ⟨hc', happ hc' ha⟩
        · rw [update_of_ne hx] at hc ha
          exact ⟨hc, ha⟩
      obtain ⟨y, hy, hv⟩ := h.applied x a hc' ha'
      exact ⟨y, (hsame y a hy).1, hdev.trans (hv.trans (hsame y a hy).2.symm)⟩
    · exact ⟨r, by rwa [update_self]⟩

theorem WriteInv.locals_of_eq (h : WriteInv align init s)
    (hreq : ∀ x ≠ r, t'.req x = s.tracker.req x) : ∀ x ≠ r, (s.co x).pc.Writing →
      Local align s.device (t'.req x) (s.co x) ∧ ShapeOk align s.device (s.co x) := by
  intro x hx
  rw [hreq x hx]
  exact h.locals x

end Steps

/-! ## Locals under the steps -/

variable {a : ℕ} {buf : List DiskByte}

section Locals

variable {align : ℕ} {device : ℕ → DiskByte} {req : BdrvTrackedRequest} {co : BlockCo}

section

variable (h : Local align device req co)
include h

theorem Local.setPc (pc : BlockPc) : Local align device req { co with pc := pc } :=
  ⟨h.ok, h.isWrite, h.reqOffset, h.reqBytes, h.fresh, h.marked, h.kept, h.plain, h.size, h.payload⟩

theorem Local.setWaitingFor (w : Option ℕ) : Local align device { req with waitingFor := w } co :=
  ⟨h.ok, h.isWrite, h.reqOffset, h.reqBytes, h.fresh, h.marked, h.kept, h.plain, h.size, h.payload⟩

theorem Local.mark (hd : 0 < align) : Local align device (req.marked align) co := by
  have hsum := roundUp_add hd co.offset₀ co.bytes₀
  have hdown := alignDown_add_mod co.offset₀ align
  have hle := le_roundUp hd (co.bytes₀ + co.offset₀ % align)
  have hfits := h.ok.fits
  refine ⟨h.ok, h.isWrite, h.reqOffset, h.reqBytes, nofun, fun _ => ?_,
    fun hq => ⟨rfl, (h.kept hq).2⟩, h.plain, h.size, h.payload⟩
  simp only [BdrvTrackedRequest.marked, h.reqOffset, h.reqBytes, hsum, Nat.add_sub_cancel_left,
    Nat.mod_eq_of_lt hfits]
  cases hser : req.serialising with
  | false =>
    obtain ⟨h1, h2⟩ := h.fresh hser
    omega
  | true =>
    obtain ⟨h1, h2⟩ := h.marked hser
    omega

/-- A write keeps the range that it covers. -/
theorem Local.covers_range (hd : 0 < align) (ha : co.Covers a) :
    req.overlapOffset ≤ a ∧ a < req.overlapOffset + req.overlapBytes := by
  obtain ⟨-, h1, h2⟩ := ha
  cases hser : req.serialising with
  | false =>
    obtain ⟨h3, h4⟩ := h.fresh hser
    omega
  | true =>
    obtain ⟨h3, h4⟩ := h.marked hser
    have := alignDown_add_mod co.offset₀ align
    have := le_roundUp hd (co.bytes₀ + co.offset₀ % align)
    omega

/-- The bytes before the request, read from the device, are put in front of it. -/
theorem Local.newHead (hser : req.serialising = true) (hd : 0 < align)
    (hnone : co.localQiov = none) (hbuf : Fetched align (alignDown co.offset align) device buf [])
    {qiov} (hq : co.qiov = some qiov) :
    Local align device req { co with
        localQiov := some (buf.take (co.offset % align) ++ qiov)
        bytes := (co.bytes + co.offset % align) % 2 ^ 32
        offset := alignDown co.offset align
        pc := .tail } ∧
      (co.bytes + co.offset % align) % 2 ^ 32 = co.bytes₀ + co.offset₀ % align := by
  obtain ⟨ho, hbytes⟩ := h.plain hnone
  have hfits := h.ok.fits
  have hle := le_roundUp hd (co.bytes₀ + co.offset₀ % align)
  have hdown := alignDown_add_mod co.offset₀ align
  have hlt := mod_lt co.offset₀ hd
  have hlen : (buf.take (co.offset₀ % align)).length = co.offset₀ % align := by
    rw [length_take, hbuf.1]
    omega
  rw [ho] at hbuf
  rw [ho, hbytes, mod_eq_of_lt (by omega)]
  refine ⟨⟨h.ok, h.isWrite, h.reqOffset, h.reqBytes, h.fresh, h.marked,
    fun _ => ⟨hser, by simp [hq]⟩, nofun, ?_, ?_⟩, rfl⟩
  · rintro q hq'
    cases hq'
    rw [length_append, hlen, h.ok.size qiov hq, add_comm]
  · intro i hi
    have hi' : i < co.bytes₀ + co.offset₀ % align := hi
    show (buf.take (co.offset₀ % align) ++ qiov).getD i 0 = _
    by_cases hlt' : i < co.offset₀ % align
    · rw [if_neg, getD_append _ _ _ _ (hlen.symm ▸ hlt'), getD_eq_getElem?_getD,
        getElem?_take_of_lt hlt', ← getD_eq_getElem?_getD]
      · exact hbuf.2 i (by omega) not_mem_nil
      · rintro ⟨-, h1, -⟩
        dsimp only at h1
        omega
    · rw [if_pos, getD_append_right _ _ _ _ (by omega), hlen]
      · simp only [value, hq]
        congr 1
        omega
      · refine ⟨h.isWrite, ?_, ?_⟩ <;> dsimp only <;> omega

/-- The bytes behind the request, read from the device, are put after it. -/
theorem Local.newTail (hser : req.serialising = true) (hd : 0 < align) (hjoined : co.Joined align)
    (hmod : (co.offset + co.bytes) % align ≠ 0)
    (hbuf : Fetched align (alignDown (co.offset + co.bytes) align) device buf [])
    {qiov} (hq : (co.localQiov <|> co.qiov) = some qiov) (hnull : co.qiov ≠ none) :
    Local align device req { co with
        localQiov := some (qiov ++ buf.drop ((co.offset + co.bytes) % align))
        bytes := roundUp co.bytes align % 2 ^ 32
        pc := .writeWait false } ∧
      roundUp co.bytes align % 2 ^ 32 = roundUp (co.bytes₀ + co.offset₀ % align) align := by
  obtain ⟨ho, hbytes⟩ := hjoined
  have hfits := h.ok.fits
  have hdown := alignDown_add_mod co.offset₀ align
  have hmod0 : co.offset % align = 0 := by rw [ho, alignDown_mod]
  have hmodb : (co.offset + co.bytes) % align = co.bytes % align := by
    rw [add_mod, hmod0, zero_add, mod_mod]
  have hround := roundUp_eq hd (hmodb ▸ hmod)
  have hend := alignDown_add_mod (co.offset + co.bytes) align
  have hlen : qiov.length = co.bytes := by
    cases hl : co.localQiov with
    | some q =>
      rw [hl] at hq
      obtain rfl := some.inj hq
      exact h.size q hl
    | none =>
      rw [hl] at hq
      rw [(h.plain hl).2]
      exact h.ok.size qiov hq
  have hold : ∀ i, co.byteAt i = qiov.getD i 0 := fun i => by rw [byteAt, hq]
  rw [← hbytes] at hfits ⊢
  rw [mod_eq_of_lt hfits]
  refine ⟨⟨h.ok, h.isWrite, h.reqOffset, h.reqBytes, h.fresh, h.marked,
    fun _ => ⟨hser, hnull⟩, nofun, ?_, ?_⟩, rfl⟩
  · rintro q hq'
    obtain rfl := some.inj hq'
    rw [length_append, length_drop, hbuf.1, hlen, hround, hmodb]
  · intro i hi
    have hi' : i < roundUp co.bytes align := hi
    show (qiov ++ buf.drop ((co.offset + co.bytes) % align)).getD i 0 = _
    by_cases hlt' : i < co.bytes
    · rw [getD_append _ _ _ _ (by omega), ← hold]
      exact h.payload i hlt'
    · rw [if_neg, getD_append_right _ _ _ _ (by omega), getD_eq_getElem?_getD,
        getElem?_drop, ← getD_eq_getElem?_getD, hbuf.2 _ (by omega) not_mem_nil]
      · show _ = device (co.offset + i)
        congr 1
        omega
      · rintro ⟨-, -, h2⟩
        dsimp only at h2
        omega

end

theorem fetched_start {base} :
    Fetched align base device (replicate align 0) (List.range align) :=
  ⟨length_replicate, fun _ hi hn => absurd (mem_range.2 hi) hn⟩

theorem BlockCo.Joined.end_eq (h : co.Joined align) :
    co.offset + co.bytes = co.offset₀ + co.bytes₀ := by
  obtain ⟨h1, h2⟩ := h
  have := alignDown_add_mod co.offset₀ align
  omega

/-- Without a tail nothing has to be added. -/
theorem BlockCo.Joined.padded (h : co.Joined align) (hd : 0 < align)
    (hmod : (co.offset + co.bytes) % align = 0) : co.Padded align := by
  obtain ⟨h1, h2⟩ := h
  refine ⟨h1, ?_⟩
  have hmod0 : co.offset % align = 0 := by rw [h1, alignDown_mod]
  rw [add_mod, hmod0, zero_add, mod_mod] at hmod
  rw [← h2, roundUp_of_mod_eq_zero hd hmod]

/-- The write stays in the range that the request keeps. -/
theorem Local.padded_range (h : Local align device req co) (hpad : co.Padded align) :
    req.overlapOffset ≤ co.offset ∧
      co.offset + co.bytes ≤ req.overlapOffset + req.overlapBytes := by
  obtain ⟨h1, h2⟩ := hpad
  cases hser : req.serialising with
  | false =>
    obtain ⟨h3, h4⟩ := h.fresh hser
    have hnone : co.localQiov = none := by
      by_contra hne
      rw [(h.kept hne).1] at hser
      cases hser
    obtain ⟨h5, h6⟩ := h.plain hnone
    omega
  | true =>
    obtain ⟨h3, h4⟩ := h.marked hser
    omega

/-- The driver is asked for every byte of the write. -/
theorem BlockCo.mem_writeBytes (bl : BlockLimits) (hoffset : co.offset % bdrvSectorSize = 0)
    (hbytes : co.bytes % bdrvSectorSize = 0) (i : ℕ) : i ∈ co.writeBytes bl ↔ i < co.bytes := by
  unfold bdrvSectorSize at hoffset hbytes
  unfold writeBytes bdrvSectorSize
  split_ifs
  · simp only [bdrvCoDoWriteZeroes_eq, mem_flatMap, mem_range'_1]
    constructor
    · rintro ⟨sector, h1, h2⟩
      omega
    · intro hi
      exact ⟨(co.offset + i) / 512, by omega, by omega⟩
  · rw [mem_range]
    omega

theorem BlockCo.Padded.mem_writeBytes (h : co.Padded align) (bl : BlockLimits)
    (hsector : bdrvSectorSize ∣ align) (i : ℕ) : i ∈ co.writeBytes bl ↔ i < co.bytes := by
  refine co.mem_writeBytes bl (mod_eq_zero_of_dvd ?_) (mod_eq_zero_of_dvd ?_) i
  · rw [h.1]
    exact hsector.trans (dvd_of_mod_eq_zero (alignDown_mod _ _))
  · rw [h.2]
    exact hsector.trans (dvd_of_mod_eq_zero (roundUp_mod _ _))

theorem BlockCo.Padded.covers_lt (h : co.Padded align) (hd : 0 < align) (ha : co.Covers a) :
    a - co.offset < co.bytes := by
  obtain ⟨h1, h2⟩ := h
  obtain ⟨-, h3, h4⟩ := ha
  have := alignDown_add_mod co.offset₀ align
  have := le_roundUp hd (co.bytes₀ + co.offset₀ % align)
  omega

end Locals

/-! ## Steps -/

section Steps

variable {align : ℕ} {bl : BlockLimits} {init : ℕ → DiskByte} {s s' : BlockState} {r : ℕ}

section

variable (h : WriteInv align init s) (hrun : s.running = none) (hidle : (s.co r).pc = .idle)
include h hrun hidle

theorem WriteInv.pwritev {offset bytes qiov} (hok : WriteOk align offset bytes qiov) :
    WriteInv align init (bdrvCoDoPwritev r offset bytes qiov s) := by
  have hold := h.isWrite_eq_false (by rw [hidle]; exact id) (by rw [hidle]; nofun)
  refine h.of_step (h.block.start_pwritev hrun hidle offset bytes qiov)
    (h.locals_of_eq fun x hx => update_of_ne hx _ _) (by simp [hold, Applied])
    (fun _ => .inl trivial) (fun _ => ⟨?_, rfl⟩) fun a => .inl ⟨rfl, fun _ => False.elim⟩
  have hreq : (trackedRequestBegin r offset bytes true s.tracker).req r =
      ⟨offset, bytes, true, false, offset, bytes, none⟩ := update_self _ _ _
  rw [hreq]
  refine ⟨hok, rfl, rfl, rfl, fun _ => ⟨rfl, rfl⟩, nofun, fun hne => absurd rfl hne,
    fun _ => ⟨rfl, rfl⟩, nofun, fun i hi => ?_⟩
  have hi' : i < bytes := hi
  rw [if_pos ⟨rfl, Nat.le_add_right _ _, Nat.add_lt_add_left hi' _⟩]
  cases qiov with
  | none => rfl
  | some q => simp [byteAt, value]

theorem WriteInv.preadv (offset bytes : ℕ) (copyOnRead : Option ℕ) :
    WriteInv align init (bdrvCoDoPreadv align r offset bytes copyOnRead s) := by
  have hold := h.isWrite_eq_false (by rw [hidle]; exact id) (by rw [hidle]; nofun)
  refine h.of_step (h.block.start_preadv hrun hidle offset bytes copyOnRead)
    (h.locals_of_eq fun x hx => ?_) (by simp [hold, Applied]) nofun False.elim
    fun a => .inl ⟨rfl, fun _ => False.elim⟩
  cases copyOnRead with
  | none => exact update_of_ne hx _ _
  | some cluster => simp [hx]

end

variable {pc : BlockPc}

/-- The coroutine of a write moves on. -/
theorem WriteInv.setPc (h : WriteInv align init s) (hb : BlockInv align { s with
      tracker := t', co := update s.co r { s.co r with pc := pc }, running := running })
    (hreq : ∀ x ≠ r, t'.req x = s.tracker.req x)
    (hlocal : Local align s.device (t'.req r) (s.co r)) (hpc : pc.Writing)
    (hshape : ShapeOk align s.device { s.co r with pc := pc })
    (happ : ∀ a, (s.co r).Covers a → ({ s.co r with pc := pc } : BlockCo).Applied a →
      (s.co r).Applied a) :
    WriteInv align init { s with
      tracker := t', co := update s.co r { s.co r with pc := pc }, running := running } :=
  h.of_step hb (h.locals_of_eq hreq) (fun _ => ⟨rfl, rfl, rfl, rfl⟩) (fun _ => .inl hpc)
    (fun _ => ⟨hlocal.setPc pc, hshape⟩) fun a => .inl ⟨rfl, happ a⟩

variable {device : ℕ → DiskByte}

theorem WaitEffect.local {t returned} (he : WaitEffect t t' r returned)
    (h : Local align device (t.req r) co) : Local align device (t'.req r) co := by
  obtain ⟨w, hw⟩ := he.self
  rw [hw]
  exact h.setWaitingFor w

section

variable (h : WriteInv align init s)
include h

/-- A request finishes. -/
theorem WriteInv.finish (ok : Bool) (hb : BlockInv align (finishRequest r ok s)) (hall : ok = true →
      (s.co r).pc = .write [] ∨ (s.co r).pc = .read) :
    WriteInv align init (finishRequest r ok s) := by
  refine h.of_step hb (fun x _ => h.locals x) (fun _ => ⟨rfl, rfl, rfl, rfl⟩)
    (fun _ => .inr ⟨ok, rfl⟩) False.elim fun a => .inl ⟨rfl, fun hc ha => ?_⟩
  rcases hall ha with hpc | hpc
  · unfold Applied
    rw [hpc]
    exact not_mem_nil
  · have hread := h.isWrite_eq_false (by rw [hpc]; exact id) (by rw [hpc]; nofun)
    exact absurd (hread.symm.trans hc.1) Bool.false_ne_true

/-- The coroutine of a read moves on. -/
theorem WriteInv.setPc_read (hpc : pc = .read ∨ pc = .readWait) (hold : (s.co r).pc = .readWait) (hb
      : BlockInv align { s with tracker := t', co := update s.co r { s.co r with pc := pc }, running
      := running }) (hreq : ∀ x ≠ r, t'.req x = s.tracker.req x) :
    WriteInv align init { s with
      tracker := t', co := update s.co r { s.co r with pc := pc }, running := running } := by
  have hread := h.isWrite_eq_false (by rw [hold]; exact id) (by rw [hold]; nofun)
  refine h.of_step hb (h.locals_of_eq hreq) (fun _ => ⟨rfl, rfl, rfl, rfl⟩) (fun hw => ?_)
    (fun hw => ?_) fun a => .inl ⟨rfl, fun hc => ?_⟩
  · exact absurd (hread.symm.trans hw) Bool.false_ne_true
  · rcases hpc with rfl | rfl <;> exact hw.elim
  · exact absurd (hread.symm.trans hc.1) Bool.false_ne_true

section

variable (hd : 0 < align) (hl : Local align s.device (s.tracker.req r) (s.co r))
  (hser : (s.tracker.req r).serialising = true)
include hd hl hser

theorem WriteInv.addHead (hnone : (s.co r).localQiov = none) (hmod : (s.co r).offset₀ % align ≠ 0)
    (hbuf : Fetched align (alignDown (s.co r).offset align) s.device buf [])
    (hsafe : BlockSafe align (QemuArm.addHead align r buf s)) :
    WriteInv align init (QemuArm.addHead align r buf s) := by
  obtain ⟨qiov, hq⟩ := ne_none_iff_exists'.1 fun hq => hmod (hl.ok.zero hq).1
  unfold QemuArm.addHead at hsafe ⊢
  dsimp only at hsafe ⊢
  rw [hq] at hsafe ⊢
  obtain ⟨hnew, hbytes⟩ := hl.newHead hser hd hnone hbuf hq
  refine h.of_step (hsafe.1 h.aborted) (fun x _ => h.locals x)
    (fun _ => ⟨rfl, rfl, rfl, hq.symm⟩) (fun _ => .inl trivial) (fun _ => ⟨?_, ?_, hbytes⟩)
    fun a => .inl ⟨rfl, fun _ => False.elim⟩
  · rwa [hq] at hnew
  · rw [(hl.plain hnone).1]

theorem WriteInv.addTail (hjoined : (s.co r).Joined align)
    (hmod : ((s.co r).offset + (s.co r).bytes) % align ≠ 0) (hbuf : Fetched align (alignDown ((s.co
      r).offset + (s.co r).bytes) align) s.device buf [])
    (hsafe : BlockSafe align (QemuArm.addTail align r buf s)) :
    WriteInv align init (QemuArm.addTail align r buf s) := by
  have hnull : (s.co r).qiov ≠ none := by
    intro hq
    obtain ⟨h1, h2⟩ := hl.ok.zero hq
    rw [hjoined.end_eq, add_mod, h1, h2, zero_add, zero_mod] at hmod
    exact hmod rfl
  have hne : ((s.co r).localQiov <|> (s.co r).qiov) ≠ none := by
    cases (s.co r).localQiov with
    | none => exact hnull
    | some q => exact nofun
  obtain ⟨qiov, hq⟩ := ne_none_iff_exists'.1 hne
  unfold QemuArm.addTail at hsafe ⊢
  dsimp only at hsafe ⊢
  rw [hq] at hsafe ⊢
  obtain ⟨hnew, hbytes⟩ := hl.newTail hser hd hjoined hmod hbuf hq hnull
  exact h.of_step (hsafe.1 h.aborted) (fun x _ => h.locals x) (fun _ => ⟨rfl, rfl, rfl, rfl⟩)
    (fun _ => .inl trivial) (fun _ => ⟨hnew, hjoined.1, hbytes⟩)
    fun a => .inl ⟨rfl, fun _ => False.elim⟩

end

theorem WriteInv.run_head (hd : 0 < align) (heq : (s.co r).pc = .head)
    (hsafe : BlockSafe align s') (hs : runRequest align bl r s = some s') :
    WriteInv align init s' := by
  obtain ⟨hl, hnone⟩ := h.locals r (heq ▸ trivial)
  rw [ShapeOk, heq] at hnone
  obtain ⟨ho, hb⟩ := hl.plain hnone
  rw [runRequest, heq] at hs
  dsimp only at hs
  split_ifs at hs with hmod
  all_goals obtain rfl := some.inj hs
  · refine h.setPc (hsafe.1 h.aborted) (fun x hx => update_of_ne hx _ _)
      ?_ trivial ⟨hnone, ho ▸ hmod⟩ fun a _ => False.elim
    simpa using hl.mark hd
  · refine h.setPc (hsafe.1 h.aborted) (fun x _ => rfl) hl trivial ?_ fun a _ => False.elim
    have hmod0 : (s.co r).offset₀ % align = 0 := by
      rw [← ho]
      exact not_not.1 hmod
    refine ⟨?_, ?_⟩
    · show (s.co r).offset = alignDown (s.co r).offset₀ align
      rw [ho, alignDown_of_mod_eq_zero hmod0]
    · show (s.co r).bytes = (s.co r).bytes₀ + (s.co r).offset₀ % align
      omega

theorem WriteInv.run_tailWait {waited} (heq : (s.co r).pc = .tailWait waited)
    (hsafe : BlockSafe align s') (hs : bdrvWait r (.tailWait true) (fun s' =>
      if waited && (s.co r).localQiov.isSome then s'.abort .tailWaited
      else s'.setPc r .tailReadWait) s = some s') : WriteInv align init s' := by
  obtain ⟨hl, hshape⟩ := h.locals r (heq ▸ trivial)
  rw [ShapeOk, heq] at hshape
  obtain ⟨t', returned, -, he, rfl⟩ :=
    bdrvWait_eq_some h.block ((h.block.active r).2 (heq ▸ trivial)) hs
  cases returned with
  | true =>
    simp only [if_true] at hsafe ⊢
    split_ifs at hsafe ⊢
    · exact absurd rfl hsafe.2.1
    · exact h.setPc (hsafe.1 h.aborted) (fun x hx => (he.others x hx).1)
        (he.local hl) trivial hshape fun a _ => False.elim
  | false =>
    exact h.setPc (hsafe.1 h.aborted) (fun x hx => (he.others x hx).1)
      (he.local hl) trivial hshape fun a _ => False.elim

/-- The driver is given all the bytes of the padded request. -/
theorem WriteInv.run_writeWait {waited} (hd : 0 < align) (hsector : bdrvSectorSize ∣ align)
    (heq : (s.co r).pc = .writeWait waited) (hsafe : BlockSafe align s')
    (hs : bdrvWait r (.writeWait true) (bdrvAlignedPwritev bl r waited) s = some s') :
    WriteInv align init s' := by
  obtain ⟨hl, hpad⟩ := h.locals r (heq ▸ trivial)
  rw [ShapeOk, heq] at hpad
  obtain ⟨t', returned, -, he, rfl⟩ :=
    bdrvWait_eq_some h.block ((h.block.active r).2 (heq ▸ trivial)) hs
  cases returned with
  | true =>
    have hrange := (he.local hl).padded_range hpad
    simp only [if_true, bdrvAlignedPwritev] at hsafe ⊢
    split_ifs at hsafe ⊢
    · exact absurd rfl hsafe.2.2
    · have hbytes := hpad.mem_writeBytes bl hsector
      refine h.setPc (hsafe.1 h.aborted) (fun x hx => (he.others x hx).1)
        (he.local hl) trivial ⟨hpad, fun i hi => (hbytes i).1 hi⟩ fun a hc ha => ?_
      exact absurd ((hbytes _).2 (hpad.covers_lt hd hc)) ha
  | false =>
    exact h.setPc (hsafe.1 h.aborted) (fun x hx => (he.others x hx).1)
      (he.local hl) trivial hpad fun a _ => False.elim

/-- One step of the coroutine of `r`. -/
theorem WriteInv.run (hd : 0 < align) (hsector : bdrvSectorSize ∣ align)
    (hrun : s.running = none ∨ s.running = some r) (hs : runRequest align bl r s = some s') :
    WriteInv align init s' := by
  have hsafe := h.block.run h.aborted hrun hs
  have hmem := h.block.active r
  have hloc := h.locals r
  have hpcok := h.block.pc r
  have hs' := hs
  unfold runRequest at hs
  dsimp only at hs
  split at hs
  all_goals rename_i heq
  all_goals try rw [heq] at hmem
  all_goals try rw [heq] at hloc
  all_goals try rw [PcOk, heq] at hpcok
  all_goals try unfold ShapeOk at hloc
  all_goals try rw [heq] at hloc
  -- head
  · exact h.run_head hd heq hsafe hs'
  -- headWait
  · obtain ⟨t', returned, -, he, rfl⟩ := bdrvWait_eq_some h.block (hmem.2 trivial) hs
    obtain ⟨hl, hshape⟩ := hloc trivial
    cases returned with
    | true | false =>
      exact h.setPc (hsafe.1 h.aborted) (fun x hx => (he.others x hx).1)
        (he.local hl) trivial hshape fun a _ => False.elim
  -- headReadWait
  · obtain ⟨hl, hshape⟩ := hloc trivial
    rw [h.block.bdrvWait_settled (hmem.2 trivial) hpcok.1 hrun] at hs
    cases hs
    exact h.setPc (hsafe.1 h.aborted) (fun x hx => rfl) hl trivial
      ⟨hshape.1, hshape.2, fetched_start⟩ fun a _ => False.elim
  -- headRead
  · obtain ⟨hl, hnone, hmod, hbuf⟩ := hloc trivial
    cases hs
    exact h.addHead hd hl hpcok.2 hnone hmod hbuf hsafe
  -- tail
  · obtain ⟨hl, hshape⟩ := hloc trivial
    split_ifs at hs with hmod
    all_goals obtain rfl := some.inj hs
    · refine h.setPc (hsafe.1 h.aborted) (fun x hx => update_of_ne hx _ _)
        ?_ trivial ⟨hshape, hmod⟩ fun a _ => False.elim
      simpa using hl.mark hd
    · exact h.setPc (hsafe.1 h.aborted) (fun x _ => rfl) hl trivial
        (hshape.padded hd (not_not.1 hmod)) fun a _ => False.elim
  -- tailWait
  · exact h.run_tailWait heq hsafe hs
  -- tailReadWait
  · obtain ⟨hl, hshape⟩ := hloc trivial
    rw [h.block.bdrvWait_settled (hmem.2 trivial) hpcok.1 hrun] at hs
    cases hs
    exact h.setPc (hsafe.1 h.aborted) (fun x hx => rfl) hl trivial
      ⟨hshape.1, hshape.2, fetched_start⟩ fun a _ => False.elim
  -- tailRead
  · obtain ⟨hl, hjoined, hmod, hbuf⟩ := hloc trivial
    cases hs
    exact h.addTail hd hl hpcok.2 hjoined hmod hbuf hsafe
  -- writeWait
  · exact h.run_writeWait hd hsector heq hsafe hs
  -- write
  · cases hs
    exact h.finish true (hsafe.1 h.aborted) fun _ => .inl heq
  -- readWait
  · obtain ⟨t', returned, -, he, rfl⟩ := bdrvWait_eq_some h.block (hmem.2 trivial) hs
    cases returned with
    | true =>
      exact h.setPc_read (.inl rfl) heq (hsafe.1 h.aborted) fun x hx => (he.others x hx).1
    | false =>
      exact h.setPc_read (.inr rfl) heq (hsafe.1 h.aborted) fun x hx => (he.others x hx).1
  -- read
  · cases hs
    exact h.finish true (hsafe.1 h.aborted) fun _ => .inr heq
  · cases hs

end

/-- A byte that the driver reads goes to the buffer. -/
theorem Fetched.fetch {base i left} (h : Fetched align base device buf left) :
    Fetched align base device (buf.set i (device (base + i))) (left.erase i) := by
  refine ⟨by rw [length_set, h.1], fun j hj hn => ?_⟩
  rw [getD_eq_getElem?_getD, getElem?_set]
  split_ifs with hij hlen
  · rw [hij]
    rfl
  · exact absurd (h.1 ▸ hij ▸ hj) hlen
  · exact h.2 j hj fun hm => hn ((mem_erase_of_ne (Ne.symm hij)).2 hm)

theorem WriteInv.fetch (h : WriteInv align init s) {i}
    (hs : fetchByte align r i s = some s') : WriteInv align init s' := by
  have hb := (h.block.fetch hs).1
  have hloc := h.locals r
  unfold ShapeOk at hloc
  unfold fetchByte at hs
  dsimp only at hs
  split at hs
  case h_3 => cases hs
  all_goals rename_i buf left heq
  all_goals obtain ⟨-, hs⟩ := ite_none_right_eq_some.1 hs
  all_goals cases hs
  all_goals rw [heq] at hloc
  all_goals obtain ⟨hl, hshape, hmod, hbuf⟩ := hloc trivial
  all_goals refine h.setPc hb (fun x _ => rfl) hl trivial ⟨hshape, hmod, hbuf.fetch⟩ ?_
  all_goals exact fun a _ => False.elim

theorem WriteInv.fail (h : WriteInv align init s) (hrun : s.running = none)
    (hs : failRequest r s = some s') : WriteInv align init s' := by
  have hb := (h.block.fail hrun hs).1
  obtain rfl : finishRequest r false s = s' := by
    unfold failRequest at hs
    split at hs
    case h_5 => cases hs
    all_goals exact some.inj hs
  exact h.finish false hb nofun

theorem BlockPc.Writing.active (h : pc.Writing) : pc.Active := by
  cases pc <;> first | exact h | exact h.elim

/-- The bytes that a request has read, or will read again, are not in the way of a write
past its wait. -/
theorem WriteInv.kept (h : WriteInv align init s) (hd : 0 < align) {x} (hx : x ≠ r)
    (hr : (s.co r).pc.Writing) (hpr : s.tracker.past r = true) (hc : (s.co r).Covers a)
    (hw : (s.co x).pc.Writing) (hp : s.tracker.Settled x) :
    ¬((s.tracker.req x).overlapOffset ≤ a ∧
      a < (s.tracker.req x).overlapOffset + (s.tracker.req x).overlapBytes) := by
  intro hin
  have hmem : ∀ y, (s.co y).pc.Writing → y ∈ s.tracker.requests :=
    fun y hy => (h.block.active y).2 hy.active
  have hrange := (h.locals r hr).1.covers_range hd hc
  have hex := h.block.tracker.exclusive r (hmem r hr) x (hmem x hw) hpr hp.1
  have hconf : s.tracker.conflicts r x = true :=
    Tracker.conflicts_iff.2 ⟨hx, .inl hp.2, by omega, by omega⟩
  rw [hex] at hconf
  cases hconf

theorem Local.update {req} (h : Local align device req co)
    (hne : ∀ i < co.bytes, ¬co.Covers (co.offset + i) → co.offset + i ≠ a) (b : DiskByte) :
    Local align (update device a b) req co := by
  refine ⟨h.ok, h.isWrite, h.reqOffset, h.reqBytes, h.fresh, h.marked, h.kept, h.plain, h.size,
    fun i hi => ?_⟩
  rw [h.payload i hi]
  split_ifs with hc
  · rfl
  · rw [update_of_ne (hne i hi hc)]

theorem Fetched.update {base left} (h : Fetched align base device buf left)
    (hne : ¬(base ≤ a ∧ a < base + align)) (b : DiskByte) :
    Fetched align base (update device a b) buf left := by
  refine ⟨h.1, fun i hi hn => ?_⟩
  rw [update_of_ne (by omega)]
  exact h.2 i hi hn

section

variable (h : WriteInv align init s) (hd : 0 < align)
include h hd

/-- A write with a local vector has passed its wait, and stands in the range it keeps. -/
theorem WriteInv.settled {x} (hw : (s.co x).pc.Writing) (hq : (s.co x).localQiov ≠ none) :
    s.tracker.Settled x ∧
      (s.co x).offset = alignDown (s.co x).offset₀ align ∧
      (s.co x).bytes ≤ roundUp ((s.co x).bytes₀ + (s.co x).offset₀ % align) align := by
  obtain ⟨hl, hshape⟩ := h.locals x hw
  have hser := (hl.kept hq).1
  have hsome := isSome_iff_ne_none.2 hq
  have hle := le_roundUp hd ((s.co x).bytes₀ + (s.co x).offset₀ % align)
  have hpc := h.block.pc x
  unfold PcOk at hpc
  unfold ShapeOk at hshape
  generalize hg : (s.co x).pc = pc at *
  cases pc with
  | idle | done | readWait | read => exact hw.elim
  | head => exact absurd hshape hq
  | headWait | headReadWait | headRead buf left => exact absurd hshape.1 hq
  | tail =>
    rw [if_pos hsome] at hpc
    exact ⟨hpc.2, hshape.1, hshape.2.le.trans hle⟩
  | tailWait waited => exact ⟨⟨(hpc.2 hsome).1, hser⟩, hshape.1.1, hshape.1.2.le.trans hle⟩
  | tailReadWait | tailRead buf left => exact ⟨hpc, hshape.1.1, hshape.1.2.le.trans hle⟩
  | writeWait waited => exact ⟨⟨(hpc hser).1, hser⟩, hshape.1, hshape.2.le⟩
  | write left => exact ⟨⟨hpc, hser⟩, hshape.1.1, hshape.1.2.le⟩

/-- The locals stay in order when the device changes outside the range that is kept. -/
theorem WriteInv.locals_update {x} (hw : (s.co x).pc.Writing) (hfree : s.tracker.Settled x →
      ¬((s.tracker.req x).overlapOffset ≤ a ∧ a < (s.tracker.req x).overlapOffset + (s.tracker.req
      x).overlapBytes)) (b : DiskByte) :
    Local align (update s.device a b) (s.tracker.req x) (s.co x) ∧
      ShapeOk align (update s.device a b) (s.co x) := by
  obtain ⟨hl, hshape⟩ := h.locals x hw
  refine ⟨hl.update (fun i hi hc ha => ?_) b, ?_⟩
  · by_cases hq : (s.co x).localQiov = none
    · obtain ⟨h1, h2⟩ := hl.plain hq
      exact hc ⟨hl.isWrite, by omega, by omega⟩
    · obtain ⟨hp, h1, h2⟩ := h.settled hd hw hq
      obtain ⟨h3, h4⟩ := hl.marked hp.2
      exact hfree hp ⟨by omega, by omega⟩
  have hpc := h.block.pc x
  unfold ShapeOk at hshape ⊢
  unfold PcOk at hpc
  split at hshape
  all_goals rename_i heq
  case h_4 =>
    rw [heq] at hpc
    obtain ⟨hq, hmod, hbuf⟩ := hshape
    obtain ⟨h3, h4⟩ := hl.marked hpc.2
    refine ⟨hq, hmod, hbuf.update (fun hin => hfree hpc ?_) b⟩
    rw [(hl.plain hq).1] at hin
    have := roundUp_ge hd (n := (s.co x).bytes₀ + (s.co x).offset₀ % align) (by omega)
    omega
  case h_8 =>
    rw [heq] at hpc
    obtain ⟨hjoined, hmod, hbuf⟩ := hshape
    obtain ⟨h3, h4⟩ := hl.marked hpc.2
    refine ⟨hjoined, hmod, hbuf.update (fun hin => hfree hpc ?_) b⟩
    rw [hjoined.end_eq] at hin hmod
    have h5 := roundUp_eq hd hmod
    have h6 := roundUp_add hd (s.co x).offset₀ (s.co x).bytes₀
    have h7 := alignDown_add_mod ((s.co x).offset₀ + (s.co x).bytes₀) align
    have h8 := alignDown_le_alignDown (d := align) (le_add_right (s.co x).offset₀ (s.co x).bytes₀)
    omega
  all_goals exact hshape

/-- One byte of a request reaches the device. -/
theorem WriteInv.apply {i} (hs : applyByte r i s = some s') : WriteInv align init s' := by
  have hb := (h.block.apply hs).1
  have hloc := h.locals r
  have hpcok := h.block.pc r
  unfold applyByte at hs
  dsimp only at hs
  split at hs
  case h_2 => cases hs
  rename_i left heq
  obtain ⟨hi, hs⟩ := ite_none_right_eq_some.1 hs
  cases hs
  unfold ShapeOk at hloc
  rw [PcOk, heq] at hpcok
  rw [heq] at hloc
  obtain ⟨hl, hpad, hleft⟩ := hloc trivial
  have hoffset : ∀ a, (s.co r).Covers a → (s.co r).offset ≤ a := by
    rintro a ⟨-, h1, -⟩
    have := alignDown_add_mod (s.co r).offset₀ align
    have := hpad.1
    omega
  -- a covered byte other than this one was applied before
  have happ : ∀ a, a ≠ (s.co r).offset + i → (s.co r).Covers a →
      a - (s.co r).offset ∉ left.erase i → (s.co r).Applied a := by
    intro a hne hc hn
    unfold Applied
    rw [heq]
    have := hoffset a hc
    exact fun hm => hn ((mem_erase_of_ne (by omega)).2 hm)
  have hpay := hl.payload i (hleft i hi)
  have hleft' : ∀ j ∈ left.erase i, j < (s.co r).bytes := fun j hj => hleft j (mem_of_mem_erase hj)
  split_ifs at hpay with hc
  · refine h.of_step hb (fun x hx hw => ?_) (fun _ => ⟨rfl, rfl, rfl, rfl⟩)
      (fun _ => .inl trivial) (fun _ => ⟨?_, hpad, hleft'⟩) fun a => ?_
    · exact h.locals_update hd hw (h.kept hd hx (heq ▸ trivial) hpcok hc hw) _
    · exact (hl.update (fun j _ hn heq => hn (heq ▸ hc)) _).setPc _
    · by_cases ha : a = (s.co r).offset + i
      · rw [ha, update_self]
        exact .inr ⟨hc, hpay⟩
      · exact .inl ⟨update_of_ne ha _ _, happ a ha⟩
  · have hdev : update s.device ((s.co r).offset + i) ((s.co r).byteAt i) = s.device := by
      rw [hpay, update_eq_self]
    rw [hdev] at hb ⊢
    refine h.setPc hb (fun x _ => rfl) hl trivial ⟨hpad, hleft'⟩ fun a ha hn => happ a ?_ ha hn
    rintro rfl
    exact hc ha

end

end Steps

/-! ## The device after the writes -/

theorem writeInv_init (align : ℕ) (device : ℕ → DiskByte) :
    WriteInv align device (init device) where
  block := blockInv_init align device
  aborted := rfl
  writes _ hr := nomatch hr
  locals _ hr := hr.elim
  known _ := .inl rfl
  applied _ _ hc := nomatch hc.1

/-- The writes of the run meet `WriteOk`. -/
def BlockOp.Ok (align : ℕ) : BlockOp → Prop
  | .pwritev _ offset bytes qiov => WriteOk align offset bytes qiov
  | _ => True

theorem WriteInv.step {align bl init s s' op} (hd : 0 < align) (hsector : bdrvSectorSize ∣ align)
    (h : WriteInv align init s) (hok : op.Ok align) (hs : blockStep align bl op s = some s') :
    WriteInv align init s' := by
  obtain ⟨-, hop⟩ := blockStep_eq_some hs
  cases op with
  | pwritev r offset bytes qiov =>
    obtain ⟨⟨hrun, hidle⟩, rfl⟩ := hop
    exact h.pwritev hrun hidle hok
  | preadv r offset bytes copyOnRead =>
    obtain ⟨⟨hrun, hidle⟩, rfl⟩ := hop
    exact h.preadv hrun hidle offset bytes copyOnRead
  | run r => exact h.run hd hsector hop.1 hop.2
  | fetch r i => exact h.fetch hop
  | apply r i => exact h.apply hd hop
  | fail r => exact h.fail hop.1 hop.2

/-- Every request that was made has completed without an error. -/
def BlockState.Completed (s : BlockState) : Prop :=
  ∀ r, (s.co r).pc = .idle ∨ (s.co r).pc = .done true

open BlockState

/-- Every byte is that of a write, or was never written. -/
def BlockState.ByteExact (init : ℕ → DiskByte) (s : BlockState) : Prop :=
  ∀ a, ((∃ r, (s.co r).Covers a) → ∃ r, (s.co r).Covers a ∧ s.device a = (s.co r).value a) ∧
    ((∀ r, ¬(s.co r).Covers a) → s.device a = init a)

/-- No run stops the program, and at the end of one the device has the data of the writes,
each byte from one that covers it. -/
theorem unaligned_writes (k : ℕ) (hk : 9 ≤ k) (bl : BlockLimits) (device : ℕ → DiskByte)
    (s : BlockState) (h : Reach (blockStep (2 ^ k) bl) (fun _ op => op.Ok (2 ^ k))
      (BlockState.init device) s) :
    s.aborted = none ∧ (s.Completed → s.ByteExact device) := by
  have hd : 0 < 2 ^ k := by positivity
  have hsector : bdrvSectorSize ∣ 2 ^ k := pow_dvd_pow 2 hk
  have hinv : WriteInv (2 ^ k) device s := h.invariant (writeInv_init _ device)
    fun _ _ _ hs hok hstep => hs.step hd hsector hok hstep
  refine ⟨hinv.aborted, fun hdone a => ⟨fun ⟨r, hr⟩ => ?_, fun hn => ?_⟩⟩
  · refine hinv.applied r a hr ?_
    rcases hdone r with hpc | hpc
    · have hread := hinv.isWrite_eq_false (by rw [hpc]; exact id) (by rw [hpc]; nofun)
      exact absurd (hread.symm.trans hr.1) Bool.false_ne_true
    · unfold Applied
      rw [hpc]
  · exact (hinv.known a).resolve_right fun ⟨r, hr, _⟩ => hn r hr

/-! ## Two writes to a sector, and a zero write -/

section Frame

variable {align : ℕ} {bl : BlockLimits} {s s' : BlockState} {r x : ℕ}

/-- The request whose coroutine or transfer the operation is. -/
def BlockOp.request : BlockOp → ℕ
  | .pwritev r .. | .preadv r .. | .run r | .fetch r _ | .apply r _ | .fail r => r

theorem bdrvWait_co {waiting} {next : BlockState → BlockState} (hx : x ≠ r)
    (hnext : ∀ t, (next t).co x = t.co x) (hs : bdrvWait r waiting next s = some s') :
    s'.co x = s.co x := by
  obtain ⟨⟨t, returned⟩, -, rfl⟩ := map_eq_some_iff.1 hs
  dsimp only
  split
  · exact hnext _
  · simp [hx]

theorem runRequest_co (hx : x ≠ r) (hs : runRequest align bl r s = some s') :
    s'.co x = s.co x := by
  unfold runRequest at hs
  dsimp only at hs
  split at hs
  case h_1 | h_5 => split_ifs at hs <;> cases hs <;> simp [hx]
  case h_2 => exact bdrvWait_co hx (fun t => by simp [hx]) hs
  case h_3 | h_7 => exact bdrvWait_co hx (fun t => by simp [startRead, hx]) hs
  case h_4 | h_8 =>
    cases hs
    simp only [addHead, addTail]
    split <;> simp [hx]
  case h_6 => exact bdrvWait_co hx (fun t => by split <;> simp [hx]) hs
  case h_9 =>
    refine bdrvWait_co hx (fun t => ?_) hs
    simp only [bdrvAlignedPwritev]
    split_ifs <;> simp [hx]
  case h_11 => exact bdrvWait_co hx (fun t => by simp [hx]) hs
  case h_10 | h_12 =>
    cases hs
    simp [finishRequest, hx]
  case h_13 => cases hs

/-- A step leaves the other coroutines alone. -/
theorem blockStep_co {op} (hs : blockStep align bl op s = some s') (hx : x ≠ op.request) :
    s'.co x = s.co x := by
  obtain ⟨-, hop⟩ := blockStep_eq_some hs
  cases op with
  | pwritev r offset bytes qiov | preadv r offset bytes copyOnRead =>
    obtain ⟨-, rfl⟩ := hop
    exact update_of_ne hx _ _
  | run r => exact runRequest_co hx hop.2
  | fetch r i =>
    simp only [fetchByte] at hop
    split at hop
    case h_3 => cases hop
    all_goals
      obtain ⟨-, hop⟩ := ite_none_right_eq_some.1 hop
      cases hop
      exact update_of_ne hx _ _
  | apply r i =>
    simp only [applyByte] at hop
    split at hop
    · obtain ⟨-, hop⟩ := ite_none_right_eq_some.1 hop
      cases hop
      exact update_of_ne hx _ _
    · cases hop
  | fail r =>
    obtain ⟨-, hop⟩ := hop
    unfold failRequest at hop
    split at hop
    case h_5 => cases hop
    all_goals
      cases hop
      exact update_of_ne hx _ _

/-- A request that no operation is about has not begun. -/
theorem idle_of_reach {device} {rs : List ℕ} (h : Reach (blockStep align bl)
    (fun _ op => op.request ∈ rs) (init device) s) (hx : x ∉ rs) : (s.co x).pc = .idle := by
  induction h with
  | refl => rfl
  | tail _ hr hstep ih =>
    have hne := fun heq : x = _ => hx (heq ▸ hr)
    rw [blockStep_co hstep hne, ih]

end Frame

/-- The driver transfers the bytes `0` to `n - 1` of a request. -/
def transfer (n : ℕ) (op : ℕ → BlockOp) : List BlockOp := (List.range n).map op

def halfSector (byte : DiskByte) : List DiskByte := replicate 256 byte

/-- Write 1 of the first half of a sector reads its tail; write 2 of the second half waits for it,
then reads its head. -/
def sharedSectorWrites : List BlockOp := flatten
  [[.pwritev 1 0 256 (some (halfSector 2)), .run 1, .run 1, .run 1, .run 1,
      .pwritev 2 256 256 (some (halfSector 3)), .run 2, .run 2],
    transfer 512 (.fetch 1), [.run 1, .run 1], transfer 512 (.apply 1), [.run 1, .run 2, .run 2],
    transfer 512 (.fetch 2), [.run 2, .run 2, .run 2], transfer 512 (.apply 2), [.run 2]]

def BlockPc.isDone : BlockPc → Bool
  | .done ok => ok
  | _ => false

theorem BlockPc.isDone_iff {pc : BlockPc} : pc.isDone = true ↔ pc = .done true := by
  cases pc <;> simp [isDone]

/-- Both writes run to their end. -/
theorem unaligned_writes_sharedSector : ∃ s, Reach (blockStep (2 ^ 9) ⟨0, 0⟩)
    (fun _ op => op.Ok (2 ^ 9)) (BlockState.init fun _ => 1) s ∧ s.aborted = none ∧ s.Completed ∧
    s.ByteExact fun _ => 1 := by
  have hrun : (sharedSectorWrites.foldlM (fun s op => blockStep (2 ^ 9) ⟨0, 0⟩ op s)
      (init fun _ => 1)).map (fun s => ((s.co 1).pc.isDone, (s.co 2).pc.isDone)) =
        some (true, true) := by decide +kernel
  obtain ⟨s, hs, heq⟩ := map_eq_some_iff.1 hrun
  have hwrite : ∀ offset byte, offset % 512 ≤ 256 →
      WriteOk (2 ^ 9) offset 256 (some (halfSector byte)) := by
    intro offset byte hle
    refine ⟨fun q hq => ?_, ?_, nofun⟩
    · rw [← some.inj hq, halfSector, length_replicate]
    · unfold roundUp
      omega
  have hops : ∀ op ∈ sharedSectorWrites, op.Ok (2 ^ 9) ∧ op.request ∈ [1, 2] := by
    simp only [sharedSectorWrites, transfer, flatten_cons, flatten_nil, append_nil, cons_append,
      nil_append, mem_cons, mem_append, List.mem_map, mem_range, not_mem_nil, or_false, BlockOp.Ok,
      BlockOp.request, forall_and, or_imp, forall_exists_index, and_imp, forall_eq,
      forall_apply_eq_imp_iff₂, implies_true, and_self, and_true, true_and, OfNat.one_ne_ofNat,
      OfNat.ofNat_ne_one, or_true]
    exact ⟨hwrite 0 2 (by decide), hwrite 256 3 (by decide)⟩
  have hdone : s.Completed := by
    intro x
    by_cases h1 : x = 1
    · exact .inr (h1 ▸ BlockPc.isDone_iff.1 (Prod.mk.inj heq).1)
    by_cases h2 : x = 2
    · exact .inr (h2 ▸ BlockPc.isDone_iff.1 (Prod.mk.inj heq).2)
    exact .inl (idle_of_reach (Reach.foldlM _ (fun op hop _ => (hops op hop).2) .refl hs)
      (by simp [h1, h2]))
  have hwrites := Reach.foldlM _ (fun op hop _ => (hops op hop).1) .refl hs
  obtain ⟨habort, hexact⟩ := unaligned_writes 9 le_rfl ⟨0, 0⟩ (fun _ => 1) s hwrites
  exact ⟨s, hwrites, habort, hdone, hexact hdone⟩

/-- A zero write that is not aligned uses the vector that it does not have. -/
theorem unaligned_zero_write : ∃ s, Reach (blockStep (2 ^ 10) ⟨0, 0⟩) (fun _ _ => True)
    (BlockState.init fun _ => 1) s ∧ s.aborted = some .nullQiov := by
  have hrun : ((flatten [[.pwritev 1 512 512 none, .run 1, .run 1, .run 1],
      transfer 1024 (.fetch 1), [.run 1]]).foldlM (fun s op => blockStep (2 ^ 10) ⟨0, 0⟩ op s)
      (init fun _ => 1)).map BlockState.aborted = some (some .nullQiov) := by decide +kernel
  obtain ⟨s, hs, habort⟩ := map_eq_some_iff.1 hrun
  exact ⟨s, Reach.foldlM _ (fun _ _ _ => trivial) .refl hs, habort⟩

end QemuArm
