import QemuArm.BlockWrite

/-!
# Serialising requests

The calls of `bdrv_co_do_pwritev` and `bdrv_co_do_preadv` keep the order that the waiting
relies on : a coroutine that begins or marks a request waits before anybody else runs.
`BlockInv` holds along every run (`BlockInv.step`), so a request that has passed a wait
since it was marked never waits again (`BlockInv.bdrvWait_settled`), and the assertions on
that never fail.

`serialising_requests` puts this together with what the waiting itself guarantees in every
interleaving of the calls.
-/

namespace QemuArm

open Option Function BdrvTrackedRequest Tracker

/-! ## The invariant -/

/-- The request is serialising and has passed a wait since. -/
def Tracker.Settled (t : Tracker) (r : ℕ) : Prop :=
  t.past r = true ∧ (t.req r).serialising = true

/-- What is known of a request where its coroutine stands. -/
@[simp] def PcOk (s : BlockState) (r : ℕ) : Prop :=
  match (s.co r).pc with
  | .head => s.running = some r ∧ (s.tracker.req r).serialising = false ∧
      (s.co r).localQiov = none
  | .headWait => (s.tracker.req r).serialising = true
  | .headReadWait | .headRead _ _ | .tailReadWait | .tailRead _ _ => s.tracker.Settled r
  | .tail => s.running = some r ∧
      if (s.co r).localQiov.isSome then s.tracker.Settled r
      else (s.tracker.req r).serialising = false
  | .tailWait waited => (s.tracker.req r).serialising = true ∧
      ((s.co r).localQiov.isSome → s.tracker.past r = true ∧ waited = false)
  | .writeWait waited => (s.tracker.req r).serialising = true →
      s.tracker.past r = true ∧ waited = false
  | .write _ | .read => s.tracker.past r = true
  | _ => True

/-- The request is tracked. -/
@[simp] def BlockPc.Active : BlockPc → Prop
  | .idle | .done _ => False
  | _ => True

/-- The request is a write in flight. -/
def BlockPc.Writing : BlockPc → Prop
  | .idle | .done _ | .readWait | .read => False
  | _ => True

structure BlockInv (align : ℕ) (s : BlockState) : Prop where
  tracker : TrackerInv s.tracker
  active : ∀ r, r ∈ s.tracker.requests ↔ (s.co r).pc.Active
  /-- a coroutine that has begun or marked a request runs until it waits -/
  lock : ∀ r ∈ s.tracker.requests, s.tracker.past r = true ∨
    (s.tracker.req r).waitingFor ≠ none ∨ s.running = some r
  running : ∀ r, s.running = some r → r ∈ s.tracker.requests ∧ (s.tracker.req r).waitingFor = none
  pc : ∀ r, PcOk s r
  /-- all marks of a write are alike -/
  marks : ∀ r, (s.co r).pc.Writing → (s.tracker.req r).serialising = true →
    (s.tracker.req r).marked align = s.tracker.req r

theorem BdrvTrackedRequest.marked_marked (req : BdrvTrackedRequest) (align : ℕ) :
    (req.marked align).marked align = req.marked align := by
  simp [marked]

variable {align r : ℕ} {s s' : BlockState}

/-- A step of the request `r` keeps the invariant if it changes nothing else and `r` is in
order after it. -/
theorem BlockInv.of_step (h : BlockInv align s) (htr : TrackerInv s'.tracker)
    (hco : ∀ x ≠ r, s'.co x = s.co x)
    (hreq : ∀ x ≠ r, s'.tracker.req x = s.tracker.req x ∧ s'.tracker.past x = s.tracker.past x ∧
      (x ∈ s'.tracker.requests ↔ x ∈ s.tracker.requests))
    (hrun : s.running = none ∨ s.running = some r) (hrun' : s'.running = none ∨ s'.running = some r)
    (hactive : r ∈ s'.tracker.requests ↔ (s'.co r).pc.Active)
    (hlock : r ∈ s'.tracker.requests → s'.tracker.past r = true ∨
      (s'.tracker.req r).waitingFor ≠ none ∨ s'.running = some r) (hself : s'.running = some r →
      r ∈ s'.tracker.requests ∧ (s'.tracker.req r).waitingFor = none) (hpc : PcOk s' r)
    (hmarks : (s'.co r).pc.Writing → (s'.tracker.req r).serialising = true →
      (s'.tracker.req r).marked align = s'.tracker.req r) : BlockInv align s' := by
  have hnot : ∀ x ≠ r, s.running ≠ some x := by
    rintro x hx heq
    rcases hrun with hn | hn
    · rw [hn] at heq
      cases heq
    · exact hx (some.inj (heq.symm.trans hn))
  refine ⟨htr, fun x => ?_, fun x hx => ?_, fun x hx => ?_, fun x => ?_, fun x => ?_⟩
  · by_cases hxr : x = r
    · rw [hxr]
      exact hactive
    · rw [(hreq x hxr).2.2, hco x hxr]
      exact h.active x
  · by_cases hxr : x = r
    · rw [hxr] at hx ⊢
      exact hlock hx
    · obtain ⟨h1, h2, h3⟩ := hreq x hxr
      rw [h1, h2]
      rcases h.lock x (h3.1 hx) with hp | hw | hr
      · exact .inl hp
      · exact .inr (.inl hw)
      · exact absurd hr (hnot x hxr)
  · obtain rfl : x = r := by
      rcases hrun' with hn | hn
      · rw [hn] at hx
        cases hx
      · exact (some.inj (hn.symm.trans hx)).symm
    exact hself hx
  · by_cases hxr : x = r
    · rw [hxr]
      exact hpc
    · obtain ⟨h1, h2, -⟩ := hreq x hxr
      have hx := h.pc x
      unfold PcOk Settled at hx ⊢
      rw [hco x hxr, h1, h2]
      split at hx
      case h_1 | h_7 => exact absurd hx.1 (hnot x hxr)
      all_goals exact hx
  · by_cases hxr : x = r
    · rw [hxr]
      exact hmarks
    · rw [hco x hxr, (hreq x hxr).1]
      exact h.marks x

/-! ## Waiting -/

/-- What a round of waiting does to the tracker. -/
structure WaitEffect (t t' : Tracker) (r : ℕ) (returned : Bool) : Prop where
  requests : t'.requests = t.requests
  others : ∀ x ≠ r, t'.req x = t.req x ∧ t'.past x = t.past x
  self : ∃ w, t'.req r = { t.req r with waitingFor := w }
  returns : returned = true → t'.past r = true ∧ (t'.req r).waitingFor = none
  waits : returned = false → (t'.req r).waitingFor ≠ none

variable {t : Tracker}

/-- Waiting keeps the marks of a request. -/
theorem WaitEffect.marks {t' returned} (he : WaitEffect t t' r returned)
    (h : (t.req r).serialising = true → (t.req r).marked align = t.req r)
    (hs : (t'.req r).serialising = true) : (t'.req r).marked align = t'.req r := by
  obtain ⟨w, hw⟩ := he.self
  rw [hw] at hs ⊢
  show { (t.req r).marked align with waitingFor := w } = _
  rw [h hs]

theorem waitRound_effect (hr : (t.req r).waitingFor = none) :
    WaitEffect t (waitRound r t).1 r (waitRound r t).2 := by
  unfold waitRound
  split
  · rename_i x hx
    refine ⟨rfl, fun y hy => ⟨update_of_ne hy _ _, update_of_ne hy _ _⟩,
      ⟨some x, update_self _ _ _⟩, nofun, fun _ => ?_⟩
    simp
  · refine ⟨rfl, fun y hy => ⟨rfl, update_of_ne hy _ _⟩, ⟨none, ?_⟩,
      fun _ => ⟨update_self _ _ _, hr⟩, nofun⟩
    show t.req r = { t.req r with waitingFor := none }
    rw [← hr]

theorem waitSerialisingRequests_effect (hr : (t.req r).waitingFor = none) :
    WaitEffect t (waitSerialisingRequests r t).1 r (waitSerialisingRequests r t).2 := by
  unfold waitSerialisingRequests
  split
  · refine ⟨rfl, fun y hy => ⟨rfl, update_of_ne hy _ _⟩, ⟨none, ?_⟩,
      fun _ => ⟨update_self _ _ _, hr⟩, nofun⟩
    show t.req r = { t.req r with waitingFor := none }
    rw [← hr]
  · exact waitRound_effect hr

theorem goOn_effect : WaitEffect t (goOn r t).1 r (goOn r t).2 := by
  unfold goOn
  obtain ⟨h1, h2, ⟨w, h3⟩, h4, h5⟩ := waitRound_effect (r := r)
    (t := { t with req := update t.req r { t.req r with waitingFor := none } })
    (by simp)
  refine ⟨h1, fun x hx => ⟨(h2 x hx).1.trans (update_of_ne hx _ _), (h2 x hx).2⟩, ⟨w, ?_⟩, h4, h5⟩
  rw [h3]
  simp

/-- A wait returns, or the coroutine stops until it is woken up. -/
theorem bdrvWait_eq_some (h : BlockInv align s) {waiting next} (hr : r ∈ s.tracker.requests)
    (hs : bdrvWait r waiting next s = some s') : ∃ t' returned,
      TrackerInv t' ∧ WaitEffect s.tracker t' r returned ∧
      s' = if returned then next { s with tracker := t', running := some r }
        else ({ s with tracker := t' }.setPc r waiting).yield := by
  obtain ⟨⟨t', returned⟩, hround, rfl⟩ := map_eq_some_iff.1 hs
  refine ⟨t', returned, ?_⟩
  split_ifs at hround with hn hb
  · have heq := some.inj hround
    have h1 := h.tracker.waitSerialisingRequests hr hn
    have h2 := waitSerialisingRequests_effect hn
    rw [heq] at h1 h2
    exact ⟨h1, h2, rfl⟩
  · have heq := some.inj hround
    have h1 := h.tracker.goOn hr (by simpa using hb)
    have h2 := goOn_effect (t := s.tracker) (r := r)
    rw [heq] at h1 h2
    exact ⟨h1, h2, rfl⟩

/-- A request that has passed a wait does not wait again. -/
theorem BlockInv.bdrvWait_settled (h : BlockInv align s) (hr : r ∈ s.tracker.requests)
    (hp : s.tracker.past r = true) (hrun : s.running = none ∨ s.running = some r)
    (waiting : BlockPc) (next : BlockState → BlockState) :
    bdrvWait r waiting next s = some (next { s with running := some r }) := by
  have hn := h.tracker.past r hr hp
  have hpast : update s.tracker.past r true = s.tracker.past := by
    rw [← hp, update_eq_self]
  have hfree : s.tracker.requests.find?
      (fun x => s.tracker.conflicts r x && (s.tracker.req x).waitingFor.isNone) = none := by
    refine List.find?_eq_none.2 fun x hx hc => ?_
    rw [Bool.and_eq_true, isNone_iff_eq_none] at hc
    rcases h.lock x hx with hpx | hw | hx'
    · rw [h.tracker.exclusive r hr x hx hp hpx] at hc
      exact Bool.false_ne_true hc.1
    · exact hw hc.2
    · rcases hrun with hrun | hrun
      · rw [hrun] at hx'
        cases hx'
      · obtain rfl := some.inj (hrun.symm.trans hx')
        rw [conflicts_self] at hc
        exact Bool.false_ne_true hc.1
  have hwait : waitSerialisingRequests r s.tracker = (s.tracker, true) := by
    unfold waitSerialisingRequests waitRound
    rw [hpast, hfree]
    simp
  unfold bdrvWait
  rw [if_pos hn, hwait]
  rfl

/-! ## Steps -/

section Steps

variable {align : ℕ} {bl : BlockLimits} {s s' : BlockState} {r : ℕ}

/-- The coroutine of `r` moves on, and the tracker is left alone. -/
theorem BlockInv.move (h : BlockInv align s) (hr : r ∈ s.tracker.requests)
    (hn : (s.tracker.req r).waitingFor = none) (hrun : s.running = none ∨ s.running = some r)
    (co : BlockCo) (running : Option ℕ) (hrun' : running = none ∨ running = some r)
    (hwrite : co.pc.Writing → (s.co r).pc.Writing) (hactive : co.pc.Active)
    (hlock : s.tracker.past r = true ∨ running = some r)
    (hpc : PcOk { s with co := update s.co r co, running := running } r) :
    BlockInv align { s with co := update s.co r co, running := running } := by
  refine h.of_step h.tracker (fun x hx => update_of_ne hx _ _)
    (fun x _ => ⟨rfl, rfl, Iff.rfl⟩) hrun hrun' ?_ (fun _ => ?_) (fun _ => ⟨hr, hn⟩) hpc ?_
  · show r ∈ s.tracker.requests ↔ (update s.co r co r).pc.Active
    rw [update_self]
    exact ⟨fun _ => hactive, fun _ => hr⟩
  · exact hlock.imp id .inr
  · show (update s.co r co r).pc.Writing → _
    rw [update_self]
    exact fun hw => h.marks r (hwrite hw)

/-- The coroutine that runs goes on. -/
theorem BlockInv.setPc (h : BlockInv align s) (hrun : s.running = some r) (pc : BlockPc)
    (hwrite : pc.Writing → (s.co r).pc.Writing) (hactive : pc.Active)
    (hpc : PcOk (s.setPc r pc) r) : BlockInv align (s.setPc r pc) := by
  obtain ⟨hr, hn⟩ := h.running r hrun
  have hres := h.move hr hn (.inr hrun) { s.co r with pc := pc } s.running (.inr hrun)
    hwrite hactive (.inr hrun) hpc
  exact hres

section

variable (h : BlockInv align s)
include h

namespace BlockInv

/-- The coroutine that runs stops for the driver, past its wait. -/
theorem setPc_yield (hrun : s.running = some r) (hp : s.tracker.past r = true)
    (pc : BlockPc) (hwrite : pc.Writing → (s.co r).pc.Writing) (hactive : pc.Active)
    (hpc : PcOk (s.setPc r pc).yield r) : BlockInv align (s.setPc r pc).yield := by
  obtain ⟨hr, hn⟩ := h.running r hrun
  have hres := h.move hr hn (.inr hrun) { s.co r with pc := pc } none (.inl rfl)
    hwrite hactive (.inl hp) hpc
  exact hres

theorem mem (hpc : (s.co r).pc.Active) : r ∈ s.tracker.requests := (h.active r).2 hpc

theorem notMem_of_idle (hidle : (s.co r).pc = .idle) : r ∉ s.tracker.requests := by
  rw [h.active, hidle]
  exact id

theorem start_pwritev (hrun : s.running = none) (hidle : (s.co r).pc = .idle)
    (offset bytes : ℕ) (qiov : Option (List DiskByte)) :
    BlockInv align (bdrvCoDoPwritev r offset bytes qiov s) := by
  have hr := h.notMem_of_idle hidle
  refine h.of_step (r := r) (h.tracker.begin hr offset bytes true)
    (fun x hx => update_of_ne hx _ _) (fun x hx => ⟨update_of_ne hx _ _,
      update_of_ne hx _ _, by simp [bdrvCoDoPwritev, hx]⟩)
    (.inl hrun) (.inr rfl) ?_ (fun _ => .inr (.inr rfl)) (fun _ => ?_) ?_ ?_
  all_goals simp [bdrvCoDoPwritev]

theorem start_preadv (hrun : s.running = none) (hidle : (s.co r).pc = .idle)
    (offset bytes : ℕ) (copyOnRead : Option ℕ) :
    BlockInv align (bdrvCoDoPreadv align r offset bytes copyOnRead s) := by
  have hr := h.notMem_of_idle hidle
  have hbegin := h.tracker.begin hr (alignDown offset align)
    (roundUp (offset % align + bytes) align) false
  cases copyOnRead with
  | none =>
    refine h.of_step (r := r) hbegin
      (fun x hx => update_of_ne hx _ _) (fun x hx => ⟨update_of_ne hx _ _,
        update_of_ne hx _ _, by simp [bdrvCoDoPreadv, hx]⟩)
      (.inl hrun) (.inr rfl) ?_ (fun _ => .inr (.inr rfl)) (fun _ => ?_) ?_ ?_
    all_goals simp [bdrvCoDoPreadv, BlockPc.Writing]
  | some cluster =>
    refine h.of_step (r := r) (hbegin.mark (by simp) cluster)
      (fun x hx => update_of_ne hx _ _) (fun x hx => ?_)
      (.inl hrun) (.inr rfl) ?_ (fun _ => .inr (.inr rfl)) (fun _ => ?_) ?_ ?_
    · simp [bdrvCoDoPreadv, hx]
    all_goals simp [bdrvCoDoPreadv, marked, BlockPc.Writing]

/-- Marking a request, by the coroutine that runs. -/
theorem mark (hrun : s.running = some r) (pc : BlockPc) (hactive : pc.Active) (hpc : PcOk {
      s.setPc r pc with tracker := markRequestSerialising r align s.tracker } r) :
    BlockInv align { s.setPc r pc with tracker := markRequestSerialising r align s.tracker } := by
  obtain ⟨hr, hn⟩ := h.running r hrun
  refine h.of_step (h.tracker.mark hr align) (fun x hx => update_of_ne hx _ _)
    (fun x hx => ⟨update_of_ne hx _ _, update_of_ne hx _ _, Iff.rfl⟩) (.inr hrun)
    (.inr hrun) ?_ (fun _ => .inr (.inr hrun)) (fun _ => ⟨hr, ?_⟩) hpc fun _ _ => ?_
  · show r ∈ s.tracker.requests ↔ (update s.co r _ r).pc.Active
    rw [update_self]
    exact ⟨fun _ => hactive, fun _ => hr⟩
  · simpa [marked] using hn
  · show (update s.tracker.req r _ r).marked align = update s.tracker.req r _ r
    rw [update_self, marked_marked]

/-- A coroutine whose wait returned is past it. -/
theorem returned (hr : r ∈ s.tracker.requests)
    (hrun : s.running = none ∨ s.running = some r) {t'} (htr : TrackerInv t')
    (he : WaitEffect s.tracker t' r true) :
    BlockInv align { s with tracker := t', running := some r } := by
  obtain ⟨hp, hn⟩ := he.returns rfl
  obtain ⟨w, hw⟩ := he.self
  have hser : (t'.req r).serialising = (s.tracker.req r).serialising := by rw [hw]
  refine h.of_step htr (fun _ _ => rfl) (fun x hx => ⟨(he.others x hx).1, (he.others x hx).2, ?_⟩)
    hrun (.inr rfl) ?_ (fun _ => .inl hp) (fun _ => ⟨?_, hn⟩) ?_ fun hwr => he.marks (h.marks r hwr)
  · rw [he.requests]
  · rw [he.requests]
    exact h.active r
  · rw [he.requests]
    exact hr
  · have hpc := h.pc r
    unfold PcOk Settled at hpc ⊢
    simp only [hser, hp, true_and]
    split at hpc
    · exact hpc.2
    · exact hpc
    · exact hpc.2
    · exact hpc.2
    · exact hpc.2
    · exact hpc.2
    · split_ifs at hpc ⊢
      · exact hpc.2.2
      · exact hpc.2
    · exact ⟨hpc.1, fun hl => (hpc.2 hl).2⟩
    · exact fun hs => (hpc hs).2
    · trivial
    · trivial
    · trivial

/-- A coroutine that waits stops until it is woken up. -/
theorem waits (hr : r ∈ s.tracker.requests) (hrun : s.running = none ∨ s.running = some r)
    {t'} (htr : TrackerInv t') (he : WaitEffect s.tracker t' r false) (pc : BlockPc)
    (hwrite : pc.Writing → (s.co r).pc.Writing) (hactive : pc.Active)
    (hpc : PcOk ({ s with tracker := t' }.setPc r pc).yield r) :
    BlockInv align ({ s with tracker := t' }.setPc r pc).yield := by
  refine h.of_step htr (fun x hx => update_of_ne hx _ _)
    (fun x hx => ⟨(he.others x hx).1, (he.others x hx).2, ?_⟩) hrun (.inl rfl) ?_
    (fun _ => .inr (.inl (he.waits rfl))) nofun hpc ?_
  · show x ∈ t'.requests ↔ _
    rw [he.requests]
  · show r ∈ t'.requests ↔ (update s.co r _ r).pc.Active
    rw [he.requests, update_self]
    exact ⟨fun _ => hactive, fun _ => hr⟩
  · show (update s.co r _ r).pc.Writing → _
    rw [update_self]
    exact fun hwr => he.marks (h.marks r (hwrite hwr))

theorem finish (hr : r ∈ s.tracker.requests) (hp : s.tracker.past r = true)
    (hrun : s.running = none ∨ s.running = some r) (ok : Bool) :
    BlockInv align (finishRequest r ok s) := by
  have hn := h.tracker.past r hr hp
  have hmem : r ∉ (s.tracker.requests.erase r) := fun hm =>
    (h.tracker.nodup.mem_erase_iff.1 hm).1 rfl
  have hpc : (update s.co r { s.co r with pc := .done ok } r).pc = .done ok := by
    rw [update_self]
  refine h.of_step (h.tracker.finish hr hn) (fun x hx => update_of_ne hx _ _)
    (fun x hx => ⟨rfl, rfl, ?_⟩) hrun (.inl rfl) ?_ (fun hm => absurd hm hmem) nofun ?_ ?_
  · show x ∈ s.tracker.requests.erase r ↔ _
    rw [h.tracker.nodup.mem_erase_iff]
    exact ⟨fun hm => hm.2, fun hm => ⟨hx, hm⟩⟩
  · show r ∈ s.tracker.requests.erase r ↔ (update s.co r _ r).pc.Active
    rw [hpc]
    exact ⟨fun hm => absurd hm hmem, False.elim⟩
  · unfold PcOk
    rw [show ((finishRequest r ok s).co r).pc = .done ok from hpc]
    trivial
  · show (update s.co r _ r).pc.Writing → _
    rw [hpc]
    exact False.elim

end BlockInv

end

/-- The invariant holds until the program stops, which is not for a request that waited
after it had passed its wait. -/
def BlockSafe (align : ℕ) (s : BlockState) : Prop :=
  (s.aborted = none → BlockInv align s) ∧ s.aborted ≠ some .tailWaited ∧
    s.aborted ≠ some .serialisingWaited

section

variable (h : BlockInv align s)
include h

theorem BlockInv.blockSafe (ha : s.aborted = none) : BlockSafe align s :=
  ⟨fun _ => h, by simp [ha], by simp [ha]⟩

theorem BlockInv.startRead {pc} (hp : s.tracker.Settled r)
    (hrun : s.running = some r) (hwrite : (s.co r).pc.Writing)
    (hpc : pc = .headRead ∨ pc = .tailRead) : BlockInv align (QemuArm.startRead align pc r s) := by
  refine h.setPc_yield hrun hp.1 _ (fun _ => hwrite) ?_ ?_
  · rcases hpc with rfl | rfl <;> trivial
  · rcases hpc with rfl | rfl <;>
      simpa using hp

section

variable (hr : r ∈ s.tracker.requests) (hp : s.tracker.Settled r)
  (hrun : s.running = none ∨ s.running = some r) (hwrite : (s.co r).pc.Writing)
  (ha : s.aborted = none)
include hr hp hrun hwrite ha

theorem BlockInv.addHead {buf} : BlockSafe align (QemuArm.addHead align r buf s) := by
  unfold QemuArm.addHead
  dsimp only
  split
  · exact ⟨nofun, by simp, by simp⟩
  · refine BlockInv.blockSafe (h.move hr (h.tracker.past r hr hp.1) hrun _ _ (.inr rfl)
      (fun _ => hwrite) trivial (.inr rfl) ?_) ha
    simp only [PcOk, update_self, isSome_some, if_true, true_and]
    exact hp

theorem BlockInv.addTail {buf} : BlockSafe align (QemuArm.addTail align r buf s) := by
  unfold QemuArm.addTail
  dsimp only
  split
  · exact ⟨nofun, by simp, by simp⟩
  · refine BlockInv.blockSafe (h.move hr (h.tracker.past r hr hp.1) hrun _ _ (.inr rfl)
      (fun _ => hwrite) trivial (.inr rfl) ?_) ha
    simp only [PcOk, update_self]
    exact fun _ => ⟨hp.1, trivial⟩

end

end

section

variable (h : BlockInv align s)
include h

namespace BlockInv

theorem alignedPwritev {waited} (hrun : s.running = some r)
    (hp : s.tracker.past r = true) (hw : (s.tracker.req r).serialising = true → waited = false)
    (hwrite : (s.co r).pc.Writing) (ha : s.aborted = none) :
    BlockSafe align (bdrvAlignedPwritev bl r waited s) := by
  unfold bdrvAlignedPwritev
  dsimp only
  split_ifs with h1 h2
  · rw [Bool.and_eq_true] at h1
    rw [hw h1.2] at h1
    exact absurd h1.1 Bool.false_ne_true
  · exact (h.setPc_yield hrun hp (.write _) (fun _ => hwrite) trivial
      (by simpa using hp)).blockSafe ha
  · exact ⟨nofun, by simp, by simp⟩

/-- A settled request goes straight on to its read. -/
theorem startRead_settled (hr : r ∈ s.tracker.requests) (hp : s.tracker.Settled r)
    (hrun : s.running = none ∨ s.running = some r) (ha : s.aborted = none) {waiting
    pc} (hpc : pc = .headRead ∨ pc = .tailRead)
    (hcur : (s.co r).pc = .headReadWait ∨ (s.co r).pc = .tailReadWait)
    (hs : bdrvWait r waiting (QemuArm.startRead align pc r) s = some s') : BlockSafe align s' := by
  rw [h.bdrvWait_settled hr hp.1 hrun] at hs
  cases hs
  have h' := h.move hr (h.tracker.past r hr hp.1) hrun (s.co r) (some r)
    (.inr rfl) id (by rcases hcur with hcur | hcur <;> rw [hcur] <;> trivial) (.inl hp.1)
    (by rcases hcur with hcur | hcur <;> simpa [hcur] using hp)
  rw [update_eq_self] at h'
  refine (h'.startRead hp rfl ?_ hpc).blockSafe ha
  rcases hcur with hcur | hcur <;> rw [hcur] <;> trivial

/-- A wait comes back, and the coroutine goes on, or it is suspended. -/
theorem wait (hr : r ∈ s.tracker.requests) (hrun : s.running = none ∨ s.running = some r)
    (ha : s.aborted = none) {waiting next} (hs : bdrvWait r waiting next s = some s')
    (hwrite : waiting.Writing → (s.co r).pc.Writing) (hactive : waiting.Active)
    (hpc : ∀ t', (∃ w, t'.req r = { s.tracker.req r with waitingFor := w }) →
      PcOk (({ s with tracker := t' }.setPc r waiting).yield) r)
    (hnext : ∀ t', (∃ w, t'.req r = { s.tracker.req r with waitingFor := w }) →
      t'.past r = true → BlockInv align { s with tracker := t', running := some r } →
      BlockSafe align (next { s with tracker := t', running := some r })) : BlockSafe align s' := by
  obtain ⟨t', returned, htr, he, rfl⟩ := bdrvWait_eq_some h hr hs
  cases returned with
  | true => exact hnext t' he.self (he.returns rfl).1 (h.returned hr hrun htr he)
  | false => exact (h.waits hr hrun htr he waiting hwrite hactive (hpc t' he.self)).blockSafe ha

/-- The tail is marked as well, with the alignment that the head was marked with. -/
theorem run_tail (ha : s.aborted = none) (heq : (s.co r).pc = .tail)
    (hs : runRequest align bl r s = some s') :
    BlockSafe align s' := by
  have hpc := h.pc r
  have hmarks := h.marks r
  rw [PcOk, heq] at hpc
  rw [heq] at hmarks
  rw [runRequest, heq] at hs
  dsimp only at hs
  obtain ⟨hr, hser⟩ := hpc
  split_ifs at hs
  all_goals obtain rfl := some.inj hs
  · refine (h.mark hr (.tailWait false) trivial ?_).blockSafe ha
    simp only [PcOk, BlockState.setPc, BlockState.setCo, update_self,
      markRequestSerialising, and_true]
    refine ⟨rfl, fun hl => ?_⟩
    -- marked before with the same alignment, so nothing changes
    rw [if_pos hl] at hser
    rw [hser.1, hmarks trivial hser.2]
    simp
  · refine (h.setPc hr (.writeWait false) (fun _ => heq ▸ trivial) trivial ?_).blockSafe ha
    simp only [PcOk, BlockState.setPc, BlockState.setCo, update_self]
    intro hs
    split_ifs at hser with hl
    · exact ⟨hser.1, trivial⟩
    · rw [hser] at hs
      cases hs

section Run

variable (ha : s.aborted = none) (hrun : s.running = none ∨ s.running = some r)
include ha hrun

theorem run_headWait (heq : (s.co r).pc = .headWait)
    (hs : bdrvWait r .headWait (fun s => s.setPc r .headReadWait) s = some s') :
    BlockSafe align s' := by
  have hpc := h.pc r
  rw [PcOk, heq] at hpc
  refine h.wait ((h.active r).2 (heq ▸ trivial)) hrun ha hs (fun _ => heq ▸ trivial) trivial
    (fun t' ⟨w, hw⟩ => ?_) fun t' ⟨w, hw⟩ hp h' => ?_
  · simp [hw, hpc]
  · refine (h'.setPc rfl .headReadWait (fun _ => heq ▸ trivial) trivial ?_).blockSafe ha
    simp [Settled, hw, hp, hpc]

/-- A request with a head has waited before, and does not wait again. -/
theorem run_tailWait {waited} (heq : (s.co r).pc = .tailWait waited)
    (hs : bdrvWait r (.tailWait true) (fun s' => if waited && (s.co r).localQiov.isSome then
      s'.abort .tailWaited else s'.setPc r .tailReadWait) s = some s') : BlockSafe align s' := by
  have hpc := h.pc r
  have hr := (h.active r).2 (heq ▸ trivial)
  rw [PcOk, heq] at hpc
  obtain ⟨hser, hlocal⟩ := hpc
  by_cases hl : (s.co r).localQiov.isSome = true
  · obtain ⟨hp, rfl⟩ := hlocal hl
    rw [h.bdrvWait_settled hr hp hrun] at hs
    cases hs
    exact (h.move hr (h.tracker.past r hr hp) hrun { s.co r with pc := .tailReadWait } (some r)
      (.inr rfl) (fun _ => heq ▸ trivial) trivial (.inr rfl)
      (by simp [Settled, hp, hser])).blockSafe ha
  · refine h.wait hr hrun ha hs (fun _ => heq ▸ trivial) trivial (fun t' ⟨w, hw⟩ => ?_)
      fun t' ⟨w, hw⟩ hp h' => ?_
    · simp only [PcOk, BlockState.setPc, BlockState.setCo, BlockState.yield, update_self, hw]
      exact ⟨hser, fun h => absurd h hl⟩
    · simp only [Bool.eq_false_of_not_eq_true hl, Bool.and_false, Bool.false_eq_true, if_false]
      refine (h'.setPc rfl .tailReadWait (fun _ => heq ▸ trivial) trivial ?_).blockSafe ha
      simp [Settled, hw, hp, hser]

/-- A request that is serialising has waited before. -/
theorem run_writeWait {waited} (heq : (s.co r).pc = .writeWait waited)
    (hs : bdrvWait r (.writeWait true) (bdrvAlignedPwritev bl r waited) s = some s') :
    BlockSafe align s' := by
  have hpc := h.pc r
  have hr := (h.active r).2 (heq ▸ trivial)
  rw [PcOk, heq] at hpc
  by_cases hser : (s.tracker.req r).serialising = true
  · obtain ⟨hp, rfl⟩ := hpc hser
    rw [h.bdrvWait_settled hr hp hrun] at hs
    cases hs
    have h' := h.move hr (h.tracker.past r hr hp) hrun (s.co r) (some r) (.inr rfl) id
      (heq ▸ trivial) (.inl hp) (by simp [heq, hp])
    rw [update_eq_self] at h'
    exact h'.alignedPwritev rfl hp (fun _ => rfl) (heq ▸ trivial) ha
  · refine h.wait hr hrun ha hs (fun _ => heq ▸ trivial) trivial (fun t' ⟨w, hw⟩ => ?_)
      fun t' ⟨w, hw⟩ hp h' => ?_
    · simp only [PcOk, BlockState.setPc, BlockState.setCo, BlockState.yield, update_self, hw]
      exact fun hs => absurd hs hser
    · exact h'.alignedPwritev rfl hp (fun hs => absurd (by simpa [hw] using hs) hser)
        (heq ▸ trivial) ha

/-- One step of the coroutine of `r`. -/
theorem run (hs : runRequest align bl r s = some s') : BlockSafe align s' := by
  have hpc := h.pc r
  have hmem := h.active r
  have hs' := hs
  unfold runRequest at hs
  dsimp only at hs
  split at hs
  all_goals rename_i heq
  all_goals try rw [PcOk, heq] at hpc
  all_goals try rw [heq] at hmem
  -- head
  · obtain ⟨hr, hser, hlocal⟩ := hpc
    split_ifs at hs
    all_goals obtain rfl := some.inj hs
    · refine (h.mark hr .headWait trivial ?_).blockSafe ha
      simp [marked]
    · refine (h.setPc hr .tail (fun _ => heq ▸ trivial) trivial ?_).blockSafe ha
      simp [hr, hlocal, hser]
  -- headWait
  · exact h.run_headWait ha hrun heq hs
  -- headReadWait
  · exact h.startRead_settled (hmem.2 trivial) hpc hrun ha (.inl rfl) (.inl heq) hs
  -- headRead
  · cases hs
    exact h.addHead (hmem.2 trivial) hpc hrun (heq ▸ trivial) ha
  -- tail
  · exact h.run_tail ha heq hs'
  -- tailWait
  · exact h.run_tailWait ha hrun heq hs
  -- tailReadWait
  · exact h.startRead_settled (hmem.2 trivial) hpc hrun ha (.inr rfl) (.inr heq) hs
  -- tailRead
  · cases hs
    exact h.addTail (hmem.2 trivial) hpc hrun (heq ▸ trivial) ha
  -- writeWait
  · exact h.run_writeWait ha hrun heq hs
  -- write
  · cases hs
    exact (h.finish (hmem.2 trivial) hpc hrun true).blockSafe ha
  -- readWait
  · refine h.wait (hmem.2 trivial) hrun ha hs False.elim trivial (fun t' _ => by simp)
      fun t' _ hp h' => ?_
    refine (h'.setPc_yield rfl hp .read False.elim trivial ?_).blockSafe ha
    simp [hp]
  -- read
  · cases hs
    exact (h.finish (hmem.2 trivial) hpc hrun true).blockSafe ha
  · cases hs

end Run

/-- The driver works on a request whoever runs. -/
theorem driver (pc : BlockPc) (hactive : (s.co r).pc.Active)
    (hwrite : (s.co r).pc.Writing) (hactive' : pc.Active) (hpc : PcOk (s.setPc r pc) r)
    (device : ℕ → DiskByte) : BlockInv align { s.setPc r pc with device := device } := by
  have hco : ∀ x, x ≠ r → (s.setPc r pc).co x = s.co x := fun x hx => update_of_ne hx _ _
  have hself : ((s.setPc r pc).co r).pc = pc := by simp
  refine ⟨h.tracker, fun x => ?_, h.lock, h.running, fun x => ?_, fun x => ?_⟩
  · by_cases hx : x = r
    · subst hx
      show _ ↔ ((s.setPc x pc).co x).pc.Active
      rw [hself]
      exact ⟨fun _ => hactive', fun _ => (h.active x).2 hactive⟩
    · show _ ↔ ((s.setPc r pc).co x).pc.Active
      rw [hco x hx]
      exact h.active x
  · by_cases hx : x = r
    · exact hx ▸ hpc
    · have := h.pc x
      unfold PcOk at this ⊢
      rw [show ({ s.setPc r pc with device := device } : BlockState).co x = s.co x from hco x hx]
      exact this
  · by_cases hx : x = r
    · exact fun _ => h.marks x (hx ▸ hwrite)
    · show ((s.setPc r pc).co x).pc.Writing → _
      rw [hco x hx]
      exact h.marks x

theorem fetch {i} (hs : fetchByte align r i s = some s') :
    BlockInv align s' ∧ s'.aborted = s.aborted := by
  have hpc := h.pc r
  unfold fetchByte at hs
  dsimp only at hs
  split at hs
  case h_3 => cases hs
  all_goals rename_i buf left heq
  all_goals obtain ⟨-, hs⟩ := ite_none_right_eq_some.1 hs
  all_goals cases hs
  all_goals rw [PcOk, heq] at hpc
  all_goals refine ⟨h.driver _ (heq ▸ trivial) (heq ▸ trivial) ?_ ?_ s.device, rfl⟩
  all_goals first | trivial | simpa using hpc

theorem apply {i} (hs : applyByte r i s = some s') :
    BlockInv align s' ∧ s'.aborted = s.aborted := by
  have hpc := h.pc r
  unfold applyByte at hs
  dsimp only at hs
  split at hs
  · rename_i left heq
    obtain ⟨-, hs⟩ := ite_none_right_eq_some.1 hs
    cases hs
    rw [PcOk, heq] at hpc
    exact ⟨h.driver (.write _) (heq ▸ trivial) (heq ▸ trivial) trivial (by simpa using hpc) _, rfl⟩
  · cases hs

theorem fail (hrun : s.running = none) (hs : failRequest r s = some s') :
    BlockInv align s' ∧ s'.aborted = s.aborted := by
  have hpc := h.pc r
  unfold failRequest at hs
  split at hs
  case h_5 => cases hs
  all_goals rename_i heq
  all_goals rw [PcOk, heq] at hpc
  all_goals obtain rfl := some.inj hs
  all_goals refine ⟨h.finish (h.mem (heq ▸ trivial)) ?_ (.inl hrun) false, rfl⟩
  exacts [hpc.1, hpc.1, hpc, hpc]

end BlockInv

end

end Steps

theorem blockInv_init (align : ℕ) (device : ℕ → DiskByte) :
    BlockInv align (BlockState.init device) where
  tracker := trackerInv_init
  active r := by simp [BlockState.init, init]
  lock r hr := absurd hr List.not_mem_nil
  running r hr := nomatch hr
  pc r := trivial
  marks r hr := hr.elim

theorem BlockPc.isIdle_iff {pc : BlockPc} : pc.isIdle = true ↔ pc = .idle := by
  cases pc <;> simp [isIdle]

theorem blockStep_eq_some {bl op} (hs : blockStep align bl op s = some s') : s.aborted = none ∧
      match op with
      | .pwritev r offset bytes qiov => (s.running = none ∧ (s.co r).pc = .idle) ∧
          s' = bdrvCoDoPwritev r offset bytes qiov s
      | .preadv r offset bytes copyOnRead => (s.running = none ∧ (s.co r).pc = .idle) ∧
          s' = bdrvCoDoPreadv align r offset bytes copyOnRead s
      | .run r => (s.running = none ∨ s.running = some r) ∧ runRequest align bl r s = some s'
      | .fetch r i => fetchByte align r i s = some s'
      | .apply r i => applyByte r i s = some s'
      | .fail r => s.running = none ∧ failRequest r s = some s' := by
  obtain ⟨ha, hs⟩ := ite_none_left_eq_some.1 hs
  refine ⟨by simpa using ha, ?_⟩
  cases op with
  | pwritev r offset bytes qiov | preadv r offset bytes copyOnRead =>
    obtain ⟨hc, hs⟩ := ite_none_right_eq_some.1 hs
    exact ⟨hc.imp_right BlockPc.isIdle_iff.1, (some.inj hs).symm⟩
  | run r | fail r => exact ite_none_right_eq_some.1 hs
  | fetch r i | apply r i => exact hs

/-- Every step keeps the invariant, until one stops the program. -/
theorem BlockSafe.step {bl op} (h : BlockSafe align s)
    (hs : blockStep align bl op s = some s') : BlockSafe align s' := by
  obtain ⟨ha, hop⟩ := blockStep_eq_some hs
  have hinv := h.1 ha
  cases op with
  | pwritev r offset bytes qiov =>
    obtain ⟨⟨hrun, hidle⟩, rfl⟩ := hop
    exact (hinv.start_pwritev hrun hidle offset bytes qiov).blockSafe ha
  | preadv r offset bytes copyOnRead =>
    obtain ⟨⟨hrun, hidle⟩, rfl⟩ := hop
    exact (hinv.start_preadv hrun hidle offset bytes copyOnRead).blockSafe ha
  | run r => exact hinv.run ha hop.1 hop.2
  | fetch r i =>
    obtain ⟨hinv', ha'⟩ := hinv.fetch hop
    exact hinv'.blockSafe (ha'.trans ha)
  | apply r i =>
    obtain ⟨hinv', ha'⟩ := hinv.apply hop
    exact hinv'.blockSafe (ha'.trans ha)
  | fail r =>
    obtain ⟨hinv', ha'⟩ := hinv.fail hop.1 hop.2
    exact hinv'.blockSafe (ha'.trans ha)

/-! ## The guarantees -/

/-- In every interleaving of the calls, requests exclude each other as they should and
somebody can go on, and in no run of the block layer does a request wait in
`bdrv_aligned_pwritev`, or before its tail, after it has passed its wait. -/
theorem serialising_requests :
    (∀ t, Reach trackStep (fun _ _ => True) Tracker.init t → SerialisingSafe t) ∧
    ∀ align bl device s, Reach (blockStep align bl) (fun _ _ => True) (BlockState.init device) s →
      s.aborted ≠ some .serialisingWaited ∧ s.aborted ≠ some .tailWaited := by
  refine ⟨fun t h => (h.invariant trackerInv_init TrackerInv.step).safe,
    fun align bl device s h => ?_⟩
  have hsafe : BlockSafe align s :=
    h.invariant ((blockInv_init align device).blockSafe rfl) fun _ _ _ hs _ hstep =>
      hs.step hstep
  exact ⟨hsafe.2.2, hsafe.2.1⟩

/-- An unaligned request and one that waits for it. -/
theorem serialising_requests_two : ∃ t, Reach trackStep (fun _ _ => True) Tracker.init t ∧
    t.past 1 = true ∧ (t.req 2).waitingFor = some 1 ∧ SerialisingSafe t := by
  have hrun : ([.begin 1 1000 10 true, .mark 1 512, .wait 1, .begin 2 512 512 true, .wait 2].foldlM
      (fun t op => trackStep op t) init).map (fun t => (t.past 1, (t.req 2).waitingFor)) =
        some (true, some 1) := by decide +kernel
  obtain ⟨t, ht, heq⟩ := map_eq_some_iff.1 hrun
  obtain ⟨h1, h2⟩ := Prod.mk.inj heq
  have hreach : Reach trackStep (fun _ _ => True) init t :=
    Reach.refl.foldlM _ (fun _ _ _ => trivial) ht
  exact ⟨t, hreach, h1, h2, serialising_requests.1 t hreach⟩

end QemuArm
