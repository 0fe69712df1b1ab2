import QemuArm.DisjointLists
import QemuArm.Reach
import QemuArm.WaitGraph

/-!
# Tracked requests

The requests in flight on a block device and the waiting between them : `block.c` keeps a
list of them, a request can be marked as serialising, and `wait_serialising_requests` makes
its caller wait for the requests that it must not overlap with. A request is named by a
number, which stands for its `BdrvTrackedRequest` and for the coroutine that runs it; the
assertion against a coroutine waiting for a request of its own says that nobody waits for
itself. A call of `wait_serialising_requests` is a step up to the point where it waits or
returns, `goOn` its next round after a wake-up.

`TrackerInv` holds in every interleaving of the calls (`TrackerInv.step`). By it requests
that must not overlap are not both past their waits, and the wait graph has no cycle.
-/

namespace QemuArm

open List Option Function DisjointLists

/-! ## Requests -/

/-- Offsets in a file do not reach `2 ^ 63`, and are numbers here. -/
structure BdrvTrackedRequest where
  offset : ℕ
  bytes : ℕ
  isWrite : Bool
  serialising : Bool
  overlapOffset : ℕ
  overlapBytes : ℕ
  waitingFor : Option ℕ
  deriving DecidableEq

/-- `past` is history : the last wait of the request has returned, and no mark has changed
the request since. -/
structure Tracker where
  /-- `tracked_requests`, in the order of the list -/
  requests : List ℕ
  req : ℕ → BdrvTrackedRequest
  /-- an `unsigned int`, which counts entries of the list (`TrackerInv.inFlight`) : it wraps neither
  below 0 nor, with fewer than `2 ^ 32` requests in flight, above -/
  serialisingInFlight : ℕ
  waitQueue : ℕ → List ℕ
  past : ℕ → Bool

open Tracker

def Tracker.init : Tracker where
  requests := []
  req := fun _ => ⟨0, 0, false, false, 0, 0, none⟩
  serialisingInFlight := 0
  waitQueue := fun _ => []
  past := fun _ => false

@[simp] def trackedRequestBegin (r offset bytes : ℕ) (isWrite : Bool) (t : Tracker) : Tracker :=
  { t with
    requests := r :: t.requests
    req := update t.req r ⟨offset, bytes, isWrite, false, offset, bytes, none⟩
    waitQueue := update t.waitQueue r []
    past := update t.past r false }

/-- `restart_all` wakes everybody who waits for the request. -/
@[simp] def trackedRequestEnd (r : ℕ) (t : Tracker) : Tracker :=
  { t with
    requests := t.requests.erase r
    serialisingInFlight :=
      if (t.req r).serialising then t.serialisingInFlight - 1 else t.serialisingInFlight
    waitQueue := update t.waitQueue r [] }

/-- `n & ~(d - 1)` for a power of two `d` -/
def alignDown (n d : ℕ) : ℕ := n / d * d

/-- `ROUND_UP(n, d)` for a power of two `d` -/
def roundUp (n d : ℕ) : ℕ := (n + d - 1) / d * d

/-- The request after it was marked. `overlap_bytes` is an `unsigned int`. -/
def BdrvTrackedRequest.marked (req : BdrvTrackedRequest) (align : ℕ) : BdrvTrackedRequest :=
  let overlapOffset := alignDown req.offset align
  let overlapBytes := (roundUp (req.offset + req.bytes) align - overlapOffset) % 2 ^ 32
  { req with
    serialising := true
    overlapOffset := min req.overlapOffset overlapOffset
    overlapBytes := max req.overlapBytes overlapBytes }

@[simp] def markRequestSerialising (r align : ℕ) (t : Tracker) : Tracker :=
  { t with
    serialisingInFlight :=
      if (t.req r).serialising then t.serialisingInFlight else t.serialisingInFlight + 1
    req := update t.req r ((t.req r).marked align)
    past := update t.past r (t.past r && decide ((t.req r).marked align = t.req r)) }

def trackedRequestOverlaps (req : BdrvTrackedRequest) (offset bytes : ℕ) : Bool :=
  if req.overlapOffset + req.overlapBytes ≤ offset then false
  else if offset + bytes ≤ req.overlapOffset then false
  else true

/-- `self` must wait for the request `r`, if that does not wait itself. -/
def Tracker.conflicts (t : Tracker) (self r : ℕ) : Bool :=
  r ≠ self && ((t.req r).serialising || (t.req self).serialising) &&
    trackedRequestOverlaps (t.req r) (t.req self).overlapOffset (t.req self).overlapBytes

/-- One scan of the list : wait for the first request found, or return. -/
def waitRound (self : ℕ) (t : Tracker) : Tracker × Bool :=
  match t.requests.find? fun r => t.conflicts self r && (t.req r).waitingFor.isNone with
  | some r =>
    ({ t with
        req := update t.req self { t.req self with waitingFor := some r }
        waitQueue := update t.waitQueue r (t.waitQueue r ++ [self])
        past := update t.past self false }, false)
  | none => ({ t with past := update t.past self true }, true)

/-- `wait_serialising_requests` until it waits or returns. The flag says that it returned. -/
def waitSerialisingRequests (self : ℕ) (t : Tracker) : Tracker × Bool :=
  if t.serialisingInFlight = 0 then ({ t with past := update t.past self true }, true)
  else waitRound self t

/-- The request goes on after the wake-up, with the next scan. -/
def goOn (self : ℕ) (t : Tracker) : Tracker × Bool :=
  waitRound self { t with req := update t.req self { t.req self with waitingFor := none } }

/-- The request waits for another one and has not been woken up. -/
def Tracker.blocked (t : Tracker) (r : ℕ) : Bool :=
  match (t.req r).waitingFor with
  | some x => r ∈ t.waitQueue x
  | none => false

/-! ## Interleavings -/

inductive TrackOp where
  | begin (r offset bytes : ℕ) (isWrite : Bool)
  | mark (r align : ℕ)
  | wait (r : ℕ)
  | goOn (r : ℕ)
  | finish (r : ℕ)

/-- Any request that does not wait can make the next call. -/
def trackStep : TrackOp → Tracker → Option Tracker
  | .begin r offset bytes isWrite, t =>
    if r ∈ t.requests then none else some (trackedRequestBegin r offset bytes isWrite t)
  | .mark r align, t =>
    if r ∈ t.requests ∧ (t.req r).waitingFor = none then some (markRequestSerialising r align t)
    else none
  | .wait r, t =>
    if r ∈ t.requests ∧ (t.req r).waitingFor = none then some (waitSerialisingRequests r t).1
    else none
  | .goOn r, t =>
    if r ∈ t.requests ∧ (t.req r).waitingFor ≠ none ∧ t.blocked r = false then some (goOn r t).1
    else none
  | .finish r, t =>
    if r ∈ t.requests ∧ (t.req r).waitingFor = none then some (trackedRequestEnd r t) else none

/-! ## The invariant -/

/-- `r` waits for `x` to finish. -/
def Tracker.WaitsFor (t : Tracker) (r x : ℕ) : Prop :=
  (t.req r).waitingFor = some x ∧ r ∈ t.waitQueue x

structure TrackerInv (t : Tracker) : Prop where
  nodup : t.requests.Nodup
  inFlight : t.serialisingInFlight = t.requests.countP fun r => (t.req r).serialising
  queue : ∀ x, ∀ r ∈ t.waitQueue x, x ∈ t.requests ∧ r ∈ t.requests ∧ (t.req r).waitingFor = some x
  past : ∀ r ∈ t.requests, t.past r = true → (t.req r).waitingFor = none
  exclusive : ∀ r ∈ t.requests, ∀ r' ∈ t.requests, t.past r = true → t.past r' = true →
    t.conflicts r r' = false
  acyclic : WaitAcyclic t.WaitsFor

theorem trackedRequestOverlaps_iff {req offset bytes} :
    trackedRequestOverlaps req offset bytes = true ↔
      offset < req.overlapOffset + req.overlapBytes ∧ req.overlapOffset < offset + bytes := by
  unfold trackedRequestOverlaps
  split_ifs <;> simp <;> omega

theorem Tracker.conflicts_iff {t : Tracker} {r r' : ℕ} : t.conflicts r r' = true ↔
    r' ≠ r ∧ ((t.req r').serialising = true ∨ (t.req r).serialising = true) ∧
      (t.req r).overlapOffset < (t.req r').overlapOffset + (t.req r').overlapBytes ∧
      (t.req r').overlapOffset < (t.req r).overlapOffset + (t.req r).overlapBytes := by
  simp [conflicts, trackedRequestOverlaps_iff, and_assoc]

theorem Tracker.conflicts_comm (t : Tracker) (r r' : ℕ) : t.conflicts r r' = t.conflicts r' r := by
  rw [Bool.eq_iff_iff, conflicts_iff, conflicts_iff, or_comm]
  tauto

theorem Tracker.conflicts_self (t : Tracker) (r : ℕ) : t.conflicts r r = false := by
  simp [conflicts]

theorem trackerInv_init : TrackerInv init where
  nodup := nodup_nil
  inFlight := rfl
  queue _ _ hr := absurd hr not_mem_nil
  past _ hr := absurd hr not_mem_nil
  exclusive _ hr := absurd hr not_mem_nil
  acyclic x hx := by
    obtain ⟨y, hy, -⟩ := Relation.TransGen.head'_iff.1 hx
    exact absurd hy.2 not_mem_nil

namespace TrackerInv

variable {t : Tracker} {r : ℕ}

/-- Nobody waits for a request that is not tracked. -/
theorem waitQueue_eq_nil (h : TrackerInv t) (hr : r ∉ t.requests) : t.waitQueue r = [] :=
  eq_nil_iff_forall_not_mem.2 fun x hx => hr (h.queue r x hx).1

/-- The requests that are past their wait are as before, and no other one waits. -/
theorem of_past {t' : Tracker} (h : TrackerInv t) (hnodup : t'.requests.Nodup)
    (hfly : t'.serialisingInFlight = t'.requests.countP fun r => (t'.req r).serialising)
    (hqueue : ∀ x, ∀ r ∈ t'.waitQueue x,
      x ∈ t'.requests ∧ r ∈ t'.requests ∧ (t'.req r).waitingFor = some x)
    (hpast : ∀ x ∈ t'.requests, t'.past x = true →
      x ∈ t.requests ∧ t.past x = true ∧ t'.req x = t.req x)
    (hwaits : ∀ x y, t'.WaitsFor x y → t.WaitsFor x y) : TrackerInv t' := by
  refine ⟨hnodup, hfly, hqueue, fun x hx hp => ?_, fun x hx y hy hpx hpy => ?_,
    h.acyclic.mono hwaits⟩
  · obtain ⟨hx, hp, heq⟩ := hpast x hx hp
    rw [heq]
    exact h.past x hx hp
  · obtain ⟨hx, hpx, hxeq⟩ := hpast x hx hpx
    obtain ⟨hy, hpy, hyeq⟩ := hpast y hy hpy
    rw [← h.exclusive x hx y hy hpx hpy]
    unfold Tracker.conflicts
    rw [hxeq, hyeq]

theorem begin (h : TrackerInv t) (hr : r ∉ t.requests) (offset bytes : ℕ) (isWrite : Bool) :
    TrackerInv (trackedRequestBegin r offset bytes isWrite t) := by
  obtain ⟨t', ht'⟩ := @exists_eq _ (trackedRequestBegin r offset bytes isWrite t)
  have hreq : ∀ x ≠ r, t'.req x = t.req x := fun x hx => by
    rw [ht']
    exact update_of_ne hx _ _
  have hnew : (t'.req r).serialising = false ∧ (t'.req r).waitingFor = none := by
    simp [ht']
  have hqueue : t'.waitQueue = t.waitQueue := by
    rw [ht']
    show update t.waitQueue r [] = t.waitQueue
    rw [← h.waitQueue_eq_nil hr, update_eq_self]
  have hpast : ∀ x, t'.past x = true → x ≠ r ∧ t.past x = true := by
    intro x hx
    rw [ht'] at hx
    by_cases hxr : x = r
    · simp [hxr] at hx
    · exact ⟨hxr, by simpa [hxr] using hx⟩
  have hmem : ∀ x, x ∈ t'.requests ↔ x = r ∨ x ∈ t.requests := by simp [ht']
  rw [← ht']
  refine h.of_past ?_ ?_ (fun x y hy => ?_) (fun x hx hp => ?_) fun x y hxy => ?_
  · rw [ht']
    exact nodup_cons.2 ⟨hr, h.nodup⟩
  · have hcongr : t.requests.countP (fun x => (t'.req x).serialising) =
        t.requests.countP fun x => (t.req x).serialising :=
      countP_congr fun x hx => by rw [hreq x fun heq => hr (heq ▸ hx)]
    rw [show t'.requests = r :: t.requests by rw [ht']; rfl, countP_cons, hcongr,
      ← h.inFlight, hnew.1, ht']
    rfl
  · rw [hqueue] at hy
    obtain ⟨h1, h2, h3⟩ := h.queue x y hy
    rw [hmem, hmem, hreq y fun heq => hr (heq ▸ h2)]
    exact ⟨.inr h1, .inr h2, h3⟩
  · obtain ⟨hxr, hp⟩ := hpast x hp
    exact ⟨((hmem x).1 hx).resolve_left hxr, hp, hreq x hxr⟩
  · have hx : x ≠ r := by
      rintro rfl
      rw [Tracker.WaitsFor, hnew.2] at hxy
      exact nomatch hxy.1
    rw [Tracker.WaitsFor, hreq x hx, hqueue] at hxy
    exact hxy

/-- Changing the mark of one request changes the count by that request. -/
theorem countP_update {l : List ℕ} (hl : l.Nodup) {p q : ℕ → Bool} (hr : r ∈ l)
    (hpq : ∀ x ≠ r, q x = p x) :
    l.countP q + (if p r then 1 else 0) = l.countP p + if q r then 1 else 0 := by
  induction l with
  | nil => exact absurd hr not_mem_nil
  | cons a l ih =>
    obtain ⟨ha, hl⟩ := nodup_cons.1 hl
    rw [countP_cons, countP_cons]
    rcases mem_cons.1 hr with rfl | hr
    · have hcongr : l.countP q = l.countP p :=
        countP_congr fun x hx => by rw [hpq x fun heq => ha (heq ▸ hx)]
      omega
    · have := ih hl hr
      rw [hpq a fun heq => ha (heq ▸ hr)]
      omega

section

variable (h : TrackerInv t)
include h

/-- A request is marked as serialising. -/
theorem mark (hr : r ∈ t.requests) (align : ℕ) : TrackerInv (markRequestSerialising r align t) := by
  obtain ⟨t', ht'⟩ := @exists_eq _ (markRequestSerialising r align t)
  have hreq : ∀ x ≠ r, t'.req x = t.req x := fun x hx => by
    rw [ht']
    exact update_of_ne hx _ _
  have hmarked : t'.req r = (t.req r).marked align := by
    rw [ht']
    exact update_self _ _ _
  have hwait : ∀ x, (t'.req x).waitingFor = (t.req x).waitingFor := by
    intro x
    by_cases hx : x = r
    · rw [hx, hmarked]
      rfl
    · rw [hreq x hx]
  have hpast : ∀ x, t'.past x = true → t.past x = true ∧ t'.req x = t.req x := by
    intro x hx
    by_cases hxr : x = r
    · rw [hxr, ht'] at hx
      rw [hxr, hmarked]
      simpa using hx
    · rw [ht'] at hx
      exact ⟨by simpa [hxr] using hx, hreq x hxr⟩
  have hmem : t'.requests = t.requests := by rw [ht']; rfl
  rw [← ht']
  refine h.of_past (hmem ▸ h.nodup) ?_ (fun x y hy => ?_) (fun x hx hp => ⟨hmem ▸ hx, hpast x hp⟩)
    fun x y hxy => ?_
  · have hcount := countP_update h.nodup (p := fun x => (t.req x).serialising)
      (q := fun x => (t'.req x).serialising) hr fun x hx => by rw [hreq x hx]
    have hser : (t'.req r).serialising = true := by
      rw [hmarked]
      rfl
    rw [hser, if_pos rfl, ← h.inFlight] at hcount
    have hfl : t'.serialisingInFlight = if (t.req r).serialising then t.serialisingInFlight
      else t.serialisingInFlight + 1 := by rw [ht']; rfl
    rw [hfl, hmem]
    split_ifs at hcount ⊢ <;> omega
  · rw [hwait y]
    rw [ht'] at hy ⊢
    exact h.queue x y hy
  · rw [Tracker.WaitsFor, hwait x] at hxy
    rw [ht'] at hxy
    exact hxy

/-- A wait that returns : nothing that must not overlap is past its wait. -/
theorem returned (hr : (t.req r).waitingFor = none) (hfree : ∀ x ∈ t.requests, t.conflicts r x =
      true → (t.req x).waitingFor ≠ none) : TrackerInv { t with past := update t.past r true } := by
  have hpast : ∀ x, update t.past r true x = true → x = r ∨ t.past x = true := by
    intro x hx
    by_cases hxr : x = r
    · exact .inl hxr
    · rw [update_of_ne hxr] at hx
      exact .inr hx
  have hnone : ∀ x ∈ t.requests, update t.past r true x = true → (t.req x).waitingFor = none := by
    intro x hx hp
    rcases hpast x hp with rfl | hp
    · exact hr
    · exact h.past x hx hp
  have hself : ∀ x ∈ t.requests, update t.past r true x = true → t.conflicts r x = false := by
    intro x hx hp
    by_contra hc
    exact hfree x hx (by simpa using hc) (hnone x hx hp)
  refine { h with past := hnone, exclusive := fun x hx y hy hpx hpy => ?_ }
  show t.conflicts x y = false
  rcases hpast x hpx with rfl | hpx'
  · exact hself y hy hpy
  · rcases hpast y hpy with rfl | hpy'
    · rw [conflicts_comm]
      exact hself x hx hpx
    · exact h.exclusive x hx y hy hpx' hpy'

/-- One request waits for another one than before. -/
theorem rewait {t' : Tracker} {f : Option ℕ} (hreqs : t'.requests = t.requests)
    (hfly : t'.serialisingInFlight = t.serialisingInFlight)
    (hreq : t'.req = update t.req r { t.req r with waitingFor := f })
    (hqueue : ∀ x, ∀ y ∈ t'.waitQueue x, y ≠ r ∧ y ∈ t.waitQueue x ∨
      y = r ∧ f = some x ∧ x ∈ t.requests ∧ r ∈ t.requests)
    (hpast : ∀ y, t'.past y = true → t.past y = true ∧ (y = r → f = none))
    (hacyclic : WaitAcyclic t'.WaitsFor) : TrackerInv t' := by
  have hne : ∀ y ≠ r, t'.req y = t.req y := fun y hy => by rw [hreq, update_of_ne hy]
  have hself : (t'.req r).waitingFor = f := by rw [hreq, update_self]
  have hsame : ∀ y, (t'.req y).serialising = (t.req y).serialising ∧
      (t'.req y).overlapOffset = (t.req y).overlapOffset ∧
      (t'.req y).overlapBytes = (t.req y).overlapBytes := by
    intro y
    by_cases hy : y = r
    · rw [hy, hreq, update_self]
      exact ⟨rfl, rfl, rfl⟩
    · rw [hne y hy]
      exact ⟨rfl, rfl, rfl⟩
  refine ⟨hreqs ▸ h.nodup, ?_, fun y z hz => ?_, fun y hy hp => ?_, fun y hy z hz hpy hpz => ?_,
    hacyclic⟩
  · rw [countP_congr fun y _ => by rw [(hsame y).1], hreqs, hfly]
    exact h.inFlight
  · rw [hreqs]
    rcases hqueue y z hz with ⟨hzr, hz⟩ | ⟨rfl, hf, hy, hz⟩
    · rw [hne z hzr]
      exact h.queue y z hz
    · exact ⟨hy, hz, hself.trans hf⟩
  · obtain ⟨hp, hf⟩ := hpast y hp
    by_cases hyr : y = r
    · rw [hyr, hself, hf hyr]
    · rw [hne y hyr]
      exact h.past y (hreqs ▸ hy) hp
  · -- whether two requests conflict depends on nothing but their ranges and marks
    obtain ⟨h1, h2, h3⟩ := hsame y
    obtain ⟨h4, h5, h6⟩ := hsame z
    rw [← h.exclusive y (hreqs ▸ hy) z (hreqs ▸ hz) (hpast y hpy).1 (hpast z hpz).1,
      Bool.eq_iff_iff, conflicts_iff, conflicts_iff, h1, h2, h3, h4, h5, h6]

section

variable (hr : r ∈ t.requests) (hrn : (t.req r).waitingFor = none)
include hr hrn

/-- Waiting for a request that does not wait. -/
theorem wait {x} (hx : x ∈ t.requests) (hne : x ≠ r) (hxn : (t.req x).waitingFor = none) :
    TrackerInv { t with
      req := update t.req r { t.req r with waitingFor := some x }
      waitQueue := update t.waitQueue x (t.waitQueue x ++ [r])
      past := update t.past r false } := by
  have hqueue : ∀ y z, z ∈ update t.waitQueue x (t.waitQueue x ++ [r]) y →
      z ∈ t.waitQueue y ∨ z = r ∧ y = x :=
    fun y z hz => mem_concat (update_self ..) (fun y hy => update_of_ne hy ..) hz
  have hnotwait : ∀ y, r ∉ t.waitQueue y := by
    intro y hy
    rw [(h.queue y r hy).2.2] at hrn
    cases hrn
  refine h.rewait (r := r) rfl rfl rfl (fun y z hz => ?_) (fun y hy => ?_) ?_
  · rcases hqueue y z hz with hz | ⟨rfl, rfl⟩
    · exact .inl ⟨fun heq => hnotwait y (heq ▸ hz), hz⟩
    · exact .inr ⟨rfl, rfl, hx, hr⟩
  · have hyr : y ≠ r := by
      rintro rfl
      simp at hy
    exact ⟨by simpa [hyr] using hy, fun heq => absurd heq hyr⟩
  · refine (acyclic_insert h.acyclic hne.symm fun y hxy => ?_).mono fun y z hyz => ?_
    · rw [Tracker.WaitsFor, hxn] at hxy
      exact nomatch hxy.1
    · obtain ⟨hw, hz⟩ := hyz
      rcases hqueue z y hz with hz | hz
      · have hyr : y ≠ r := fun heq => hnotwait z (heq ▸ hz)
        exact .inl ⟨by simpa [hyr] using hw, hz⟩
      · exact .inr hz

theorem waitRound : TrackerInv (QemuArm.waitRound r t).1 := by
  unfold QemuArm.waitRound
  split
  · rename_i x hx
    have hmem := mem_of_find?_eq_some hx
    have hc := find?_some hx
    rw [Bool.and_eq_true] at hc
    exact h.wait hr hrn hmem (conflicts_iff.1 hc.1).1 (isNone_iff_eq_none.1 hc.2)
  · rename_i hnone
    refine h.returned hrn fun x hx hc hxn => ?_
    have := find?_eq_none.1 hnone x hx
    simp [hc, hxn] at this

theorem waitSerialisingRequests : TrackerInv (QemuArm.waitSerialisingRequests r t).1 := by
  unfold QemuArm.waitSerialisingRequests
  split
  · rename_i h0
    rw [h.inFlight, countP_eq_zero] at h0
    refine h.returned hrn fun x hx hc => ?_
    have := (conflicts_iff.1 hc).2.1
    exact absurd this (by simp [h0 x hx, h0 r hr])
  · exact h.waitRound hr hrn

end

/-- A woken request stops waiting. -/
theorem woken (hb : t.blocked r = false) :
    TrackerInv { t with req := update t.req r { t.req r with waitingFor := none } } := by
  have hnot : ∀ x, r ∉ t.waitQueue x := by
    intro x hx
    rw [blocked, (h.queue x r hx).2.2] at hb
    simp [hx] at hb
  refine h.rewait (r := r) rfl rfl rfl (fun y z hz => .inl ⟨fun heq => hnot y (heq ▸ hz), hz⟩)
    (fun y hy => ⟨hy, fun _ => rfl⟩) (h.acyclic.mono fun y z hyz => ?_)
  obtain ⟨hw, hz⟩ := hyz
  have hyr : y ≠ r := fun heq => hnot z (heq ▸ hz)
  exact ⟨by simpa [hyr] using hw, hz⟩

theorem goOn (hr : r ∈ t.requests) (hb : t.blocked r = false) :
    TrackerInv (QemuArm.goOn r t).1 := by
  refine (h.woken hb).waitRound hr ?_
  show (update t.req r _ r).waitingFor = none
  rw [update_self]

theorem finish (hr : r ∈ t.requests) (hrn : (t.req r).waitingFor = none) :
    TrackerInv (trackedRequestEnd r t) := by
  obtain ⟨t', ht'⟩ := @exists_eq _ (trackedRequestEnd r t)
  have hreq : t'.req = t.req := by rw [ht']; rfl
  have hmem : ∀ x, x ∈ t'.requests ↔ x ≠ r ∧ x ∈ t.requests := by
    intro x
    rw [ht']
    exact h.nodup.mem_erase_iff
  have hqueue : ∀ x, ∀ y ∈ t'.waitQueue x, x ≠ r ∧ y ∈ t.waitQueue x := by
    intro x y hy
    rw [ht'] at hy
    by_cases hx : x = r
    · simp [hx] at hy
    · exact ⟨hx, by simpa [hx] using hy⟩
  have hpast : t'.past = t.past := by rw [ht']; rfl
  rw [← ht']
  refine h.of_past ?_ ?_ (fun x y hy => ?_) (fun x hx hp => ?_) fun x y hxy => ?_
  · rw [ht']
    exact h.nodup.erase r
  · rw [hreq, show t'.requests = t.requests.erase r by rw [ht']; rfl, countP_erase,
      ← h.inFlight, ht']
    show (if (t.req r).serialising then _ else _) = _
    split_ifs with h1 h2 h2
    · rfl
    · exact absurd ⟨hr, h1⟩ h2
    · exact absurd h2.2 h1
    · rfl
  · obtain ⟨hxr, hy⟩ := hqueue x y hy
    obtain ⟨h1, h2, h3⟩ := h.queue x y hy
    rw [hmem, hmem, hreq]
    refine ⟨⟨hxr, h1⟩, ⟨?_, h2⟩, h3⟩
    rintro rfl
    rw [hrn] at h3
    cases h3
  · rw [hpast] at hp
    exact ⟨((hmem x).1 hx).2, hp, by rw [hreq]⟩
  · rw [Tracker.WaitsFor, hreq] at hxy
    exact ⟨hxy.1, (hqueue y x hxy.2).2⟩

end

theorem step (t : Tracker) (op : TrackOp) (t' : Tracker) (h : TrackerInv t) (_ : True)
    (hs : trackStep op t = some t') : TrackerInv t' := by
  cases op with
  | begin r offset bytes isWrite =>
    obtain ⟨hr, hs⟩ := ite_none_left_eq_some.1 hs
    cases hs
    exact h.begin hr offset bytes isWrite
  | mark r align =>
    obtain ⟨⟨hr, -⟩, hs⟩ := ite_none_right_eq_some.1 hs
    cases hs
    exact h.mark hr align
  | wait r =>
    obtain ⟨⟨hr, hrn⟩, hs⟩ := ite_none_right_eq_some.1 hs
    cases hs
    exact h.waitSerialisingRequests hr hrn
  | goOn r =>
    obtain ⟨⟨hr, -, hb⟩, hs⟩ := ite_none_right_eq_some.1 hs
    cases hs
    exact h.goOn hr hb
  | finish r =>
    obtain ⟨⟨hr, hrn⟩, hs⟩ := ite_none_right_eq_some.1 hs
    cases hs
    exact h.finish hr hrn

end TrackerInv

/-! ## What the waiting guarantees -/

/-- The byte is in the range that the request keeps for itself. -/
def BdrvTrackedRequest.Keeps (req : BdrvTrackedRequest) (a : ℕ) : Prop :=
  req.overlapOffset ≤ a ∧ a < req.overlapOffset + req.overlapBytes

/-- Requests whose ranges intersect, one of them serialising, are never both past their
last wait and unfinished, where a request that was changed by a mark has yet to wait. No
request waits for itself, through others or not, and some request does not wait. -/
structure SerialisingSafe (t : Tracker) : Prop where
  exclusive : ∀ r ∈ t.requests, ∀ r' ∈ t.requests, r ≠ r' → t.past r = true → t.past r' = true →
    (t.req r).serialising = true → ∀ a, ¬((t.req r).Keeps a ∧ (t.req r').Keeps a)
  acyclic : WaitAcyclic t.WaitsFor
  progress : t.requests ≠ [] → ∃ r ∈ t.requests, ∀ x, ¬t.WaitsFor r x

theorem TrackerInv.safe {t : Tracker} (h : TrackerInv t) : SerialisingSafe t where
  exclusive r hr r' hr' hne hp hp' hser a := by
    rintro ⟨⟨h1, h2⟩, h3, h4⟩
    have hc : t.conflicts r r' = true :=
      conflicts_iff.2 ⟨hne.symm, .inr hser, by omega, by omega⟩
    rw [h.exclusive r hr r' hr' hp hp'] at hc
    cases hc
  acyclic := h.acyclic
  progress hne := exists_not_waiting h.acyclic hne fun r _ x hrx => (h.queue x r hrx.2).1

/-- The counter is right, so that the early return of `wait_serialising_requests` is what the scan
would come to, and who waits for somebody waits for a request that is still tracked. -/
theorem waitSerialisingRequests_eq_scan {t : Tracker} {r : ℕ}
    (h : Reach trackStep (fun _ _ => True) init t) (hr : r ∈ t.requests) :
    waitSerialisingRequests r t = waitRound r t ∧
      ∀ q x, t.WaitsFor q x → q ∈ t.requests ∧ x ∈ t.requests := by
  have hinv := h.invariant trackerInv_init TrackerInv.step
  refine ⟨?_, fun q x hq => ⟨(hinv.queue x q hq.2).2.1, (hinv.queue x q hq.2).1⟩⟩
  unfold waitSerialisingRequests
  split_ifs with hzero
  · rw [hinv.inFlight, List.countP_eq_zero] at hzero
    have hnone : t.requests.find? (fun x => t.conflicts r x && (t.req x).waitingFor.isNone) =
        none := List.find?_eq_none.2 fun x hx => by simp_all [conflicts]
    rw [waitRound, hnone]
  · rfl

/-- Two writes to the halves of a sector, each marked as serialising. The first one is past its
wait. -/
def sharedSector : List TrackOp :=
  [.begin 1 0 256 true, .mark 1 512, .wait 1, .begin 2 256 256 true, .mark 2 512]

/-- The second write finds the first one and waits for it. -/
theorem waitSerialisingRequests_eq_scan_sharedSector : ∃ t t',
    sharedSector.foldlM (fun t op => trackStep op t) init = some t ∧
      trackStep (.wait 2) t = some t' ∧ waitSerialisingRequests 2 t = waitRound 2 t ∧
      t'.WaitsFor 2 1 ∧ ∀ q x, t'.WaitsFor q x → q ∈ t'.requests ∧ x ∈ t'.requests := by
  have hrun : ((sharedSector.foldlM (fun t op => trackStep op t) init).bind fun t =>
      (trackStep (.wait 2) t).map fun t' => decide (2 ∈ t.requests ∧ 2 ∈ t'.requests ∧
        (t'.req 2).waitingFor = some 1 ∧ 2 ∈ t'.waitQueue 1)) = some true := by decide +kernel
  obtain ⟨t, ht, h⟩ := bind_eq_some_iff.1 hrun
  obtain ⟨t', ht', h⟩ := map_eq_some_iff.1 h
  obtain ⟨hmem, hmem', hwaits⟩ := of_decide_eq_true h
  have hreach : Reach trackStep (fun _ _ => True) init t :=
    Reach.foldlM _ (fun _ _ _ => trivial) .refl ht
  exact ⟨t, t', ht, ht', (waitSerialisingRequests_eq_scan hreach hmem).1, hwaits,
    (waitSerialisingRequests_eq_scan (hreach.tail (i := .wait 2) trivial ht') hmem').2⟩

end QemuArm
