import QemuArm.Reach

/-!
# Used-ring interrupts of virtio

`hw/virtio/virtio.c` : the device puts elements on the used ring of a queue, and
`virtio_notify` decides whether to interrupt the guest, which has published the index that it
waits for. The used index is a number here that never wraps, and the ring has it modulo
`2 ^ 16`.

`virtioNotify_raises` : once the index has moved past the one that the guest waits for since
the last decision, the guest is interrupted.
-/

namespace QemuArm

def VIRTQUEUE_MAX_SIZE : ℕ := 1024

/-- The size of a ring is checked by `virtio_add_queue` and `virtio_queue_set_num`. -/
structure VRingSize where
  num : ℕ
  le_max : num ≤ VIRTQUEUE_MAX_SIZE

/-- A queue of a device, with what the guest has published for it. -/
structure VirtQueue where
  vring : VRingSize
  /-- the used index of the ring, before it is taken modulo `2 ^ 16` -/
  used : ℕ
  /-- the used ring : the index and the length of an element -/
  ring : ℕ → ℕ × ℕ
  lastAvailIdx : BitVec 16
  signalledUsed : BitVec 16
  signalledUsedValid : Bool
  inuse : ℤ
  /-- published by the guest -/
  availIdx : BitVec 16
  usedEvent : BitVec 16
  noInterrupt : Bool
  /-- `VIRTIO_F_NOTIFY_ON_EMPTY` and `VIRTIO_RING_F_EVENT_IDX` among the features -/
  notifyOnEmpty : Bool
  eventIdx : Bool
  isr : BitVec 8
  /-- history : the calls of `virtio_notify_vector` -/
  interrupts : ℕ
  /-- history : `used` when `signalled_used` was set -/
  recorded : Option ℕ

variable (vq : VirtQueue)

def vringUsedIdx : BitVec 16 := .ofNat 16 vq.used

def virtqueueFill (index len idx : ℕ) : VirtQueue :=
  { vq with
    ring := Function.update vq.ring ((idx + (vringUsedIdx vq).toNat) % vq.vring.num) (index, len) }

def virtqueueFlush (count : ℕ) : VirtQueue :=
  let old := vringUsedIdx vq
  let new := old + .ofNat 16 count
  { vq with
    used := vq.used + count
    inuse := vq.inuse - count
    signalledUsedValid :=
      if (new - vq.signalledUsed).toInt < (new - old).toNat then false
      else vq.signalledUsedValid }

def vringNeedEvent (event new old : BitVec 16) : Bool :=
  decide ((new - event - 1).toNat < (new - old).toNat)

/-- Whether to interrupt the guest. -/
def vringNotify : Bool × VirtQueue :=
  if vq.notifyOnEmpty ∧ vq.inuse = 0 ∧ vq.availIdx = vq.lastAvailIdx then (true, vq)
  else if vq.eventIdx = false then (!vq.noInterrupt, vq)
  else
    (!vq.signalledUsedValid || vringNeedEvent vq.usedEvent (vringUsedIdx vq) vq.signalledUsed,
      { vq with
        signalledUsedValid := true
        signalledUsed := vringUsedIdx vq
        recorded := some vq.used })

def virtioNotify : VirtQueue :=
  let (notify, vq) := vringNotify vq
  if notify then { vq with isr := vq.isr ||| 1, interrupts := vq.interrupts + 1 } else vq

/-- What the device and the guest do with a queue. -/
inductive VqOp where
  | fill (index len idx : ℕ)
  | flush (count : ℕ)
  | notify
  /-- `virtqueue_pop` takes an element -/
  | pop
  /-- the guest publishes elements, the index that it waits for, or its flags -/
  | guest (availIdx usedEvent : BitVec 16) (noInterrupt : Bool)

def vqStep (op : VqOp) (vq : VirtQueue) : Option VirtQueue :=
  match op with
  | .fill index len idx => some (virtqueueFill vq index len idx)
  | .flush count => some (virtqueueFlush vq count)
  | .notify => some (virtioNotify vq)
  | .pop => some { vq with lastAvailIdx := vq.lastAvailIdx + 1, inuse := vq.inuse + 1 }
  | .guest availIdx usedEvent noInterrupt =>
    some { vq with availIdx := availIdx, usedEvent := usedEvent, noInterrupt := noInterrupt }

/-- A flush is of at least one element, and of no more than the ring has. -/
def VqOp.Fits : VqOp → Prop
  | .flush count => 1 ≤ count ∧ count ≤ vq.vring.num
  | _ => True

/-- A queue with event indices after `virtio_reset`. -/
structure VirtQueue.Fresh : Prop where
  eventIdx : vq.eventIdx = true
  invalid : vq.signalledUsedValid = false
  recorded : vq.recorded = none

/-! ## The index that was signalled -/

/-- A valid `signalled_used` is less than half of the range of the index behind. -/
structure SignalledOk : Prop where
  eventIdx : vq.eventIdx = true
  valid : vq.signalledUsedValid = true → ∃ u, vq.recorded = some u ∧
    vq.signalledUsed = .ofNat 16 u ∧ u ≤ vq.used ∧ vq.used < u + 2 ^ 15

variable {vq}

/-- The distance between two indices. -/
theorem idx_sub {a b : ℕ} (h : a ≤ b) : BitVec.ofNat 16 b - .ofNat 16 a = .ofNat 16 (b - a) := by
  obtain ⟨d, rfl⟩ := Nat.exists_eq_add_of_le h
  rw [BitVec.ofNat_add, BitVec.add_comm, BitVec.add_sub_cancel, Nat.add_sub_cancel_left]

theorem SignalledOk.flush (h : SignalledOk vq) {count : ℕ} (hle : count ≤ vq.vring.num) :
    SignalledOk (virtqueueFlush vq count) := by
  refine ⟨h.eventIdx, fun hvalid => ?_⟩
  simp only [virtqueueFlush, vringUsedIdx, Bool.if_false_left, Bool.and_eq_true, Bool.not_eq_true',
    decide_eq_false_iff_not, not_lt, ← BitVec.ofNat_add] at hvalid ⊢
  obtain ⟨hnear, hvalid⟩ := hvalid
  obtain ⟨u, hu, hsignalled, hle', hlt⟩ := h.valid hvalid
  refine ⟨u, hu, hsignalled, by omega, ?_⟩
  -- one flush cannot jump over the indices that look negative
  have hmax := vq.vring.le_max
  rw [VIRTQUEUE_MAX_SIZE] at hmax
  rw [hsignalled, idx_sub (by omega), idx_sub (by omega), BitVec.toInt_eq_toNat_cond] at hnear
  simp only [BitVec.toNat_ofNat] at hnear
  split_ifs at hnear <;> omega

theorem SignalledOk.notify (h : SignalledOk vq) : SignalledOk (virtioNotify vq) := by
  have hq : SignalledOk (vringNotify vq).2 := by
    unfold vringNotify
    split_ifs
    · exact h
    · exact h
    · exact ⟨h.eventIdx, fun _ => ⟨vq.used, rfl, rfl, le_rfl, by simp⟩⟩
  unfold virtioNotify
  dsimp only
  split_ifs
  · exact ⟨hq.eventIdx, hq.valid⟩
  · exact hq

theorem SignalledOk.step {op : VqOp} {vq' : VirtQueue} (h : SignalledOk vq) (hfits : op.Fits vq)
    (hstep : vqStep op vq = some vq') : SignalledOk vq' := by
  cases op <;> cases hstep
  case flush => exact h.flush hfits.2
  case notify => exact h.notify
  all_goals exact ⟨h.eventIdx, h.valid⟩

/-- The index `e` that the guest waits for is one of those since the last decision. -/
theorem SignalledOk.vringNotify (h : SignalledOk vq) {u e : ℕ} (hu : vq.recorded = some u)
    (hle : u ≤ e) (hlt : e < vq.used) (he : vq.usedEvent = .ofNat 16 e) :
    (vringNotify vq).1 = true := by
  unfold QemuArm.vringNotify
  split_ifs with hempty hevent
  · rfl
  · simp [h.eventIdx] at hevent
  · cases hvalid : vq.signalledUsedValid
    · rfl
    · obtain ⟨u', hu', hsignalled, hle', hlt'⟩ := h.valid hvalid
      obtain rfl : u = u' := Option.some.inj (hu.symm.trans hu')
      have hone := idx_sub (show 1 ≤ vq.used - e by omega)
      simp only [vringNeedEvent, he, hsignalled, vringUsedIdx, idx_sub hlt.le, idx_sub hle']
      rw [show (1 : BitVec 16) = .ofNat 16 1 from rfl, hone]
      simp
      omega

/-- No interrupt is lost : the index has moved past the one that the guest waits for. -/
theorem virtioNotify_raises {vq₀ vq : VirtQueue} (hfresh : vq₀.Fresh)
    (hrun : Reach vqStep (fun vq op => op.Fits vq) vq₀ vq) {u e : ℕ}
    (hu : vq.recorded = some u) (hle : u ≤ e) (hlt : e < vq.used)
    (he : vq.usedEvent = .ofNat 16 e) :
    (virtioNotify vq).interrupts = vq.interrupts + 1 ∧ (virtioNotify vq).isr = vq.isr ||| 1 := by
  have h : SignalledOk vq := by
    refine hrun.invariant ⟨hfresh.eventIdx, fun hvalid => ?_⟩ fun vq op vq' h hfits hstep =>
      h.step hfits hstep
    simp [hfresh.invalid] at hvalid
  have hnotify := h.vringNotify hu hle hlt he
  have hkeeps : (vringNotify vq).2.interrupts = vq.interrupts ∧
      (vringNotify vq).2.isr = vq.isr := by
    unfold vringNotify
    split_ifs <;> exact ⟨rfl, rfl⟩
  simp [virtioNotify, hnotify, hkeeps]

/-- A queue whose index is about to wrap. -/
def wrappingQueue : VirtQueue where
  vring := ⟨4, by decide⟩
  used := 65535
  ring _ := (0, 0)
  lastAvailIdx := 0
  signalledUsed := 0
  signalledUsedValid := false
  inuse := 2
  availIdx := 0
  usedEvent := 0
  noInterrupt := false
  notifyOnEmpty := false
  eventIdx := true
  isr := 0
  interrupts := 0
  recorded := none

/-- The index wraps, and the second interrupt is raised. -/
theorem virtioNotify_raises_wrapping : ∃ vq,
    vqStep (.flush 2) (virtioNotify wrappingQueue) = some vq ∧
    (virtioNotify vq).interrupts = 2 ∧ (virtioNotify vq).isr = 1 ||| 1 :=
  ⟨_, rfl, virtioNotify_raises (u := 65535) (e := 65536) ⟨rfl, rfl, rfl⟩
    ((Reach.refl.tail (i := .notify) trivial rfl).tail (i := .flush 2) ⟨by decide, by decide⟩ rfl)
    rfl (by decide) (by decide) rfl⟩

end QemuArm
