import QemuArm.DisjointLists
import QemuArm.Reach

/-!
# Coroutine locks

`CoMutex` and `CoRwlock` of `qemu-coroutine-lock.c`. Which coroutine runs next is left open,
but for one that waits in a queue : it goes on only after `qemu_co_queue_run_restart` has
taken it off the wake-up list it was moved to. The code between two waits runs at once.

An unlock does not hand the lock over : the coroutine it wakes tests again, and may find the
lock taken and queue itself once more. `coLocks_safe` : a mutex has one holder, a writer
excludes all others, and whoever is queued waits for a holder, or for a coroutine that was
woken and has not gone on yet.

The fields `mutexHolders`, `writers` and `readers` are history and change nothing else.
-/

namespace QemuArm

open List Function Option DisjointLists

inductive CoQueueId where
  | mutex (m : ℕ)
  | rwlock (l : ℕ)
  /-- a `CoQueue` of its own -/
  | plain (q : ℕ)
  deriving DecidableEq

/-- The function in whose `qemu_co_queue_wait` a coroutine is. -/
inductive LockCall where
  | mutexLock (m : ℕ)
  | rdlock (l : ℕ)
  | wrlock (l : ℕ)
  | wait (q : ℕ)
  deriving DecidableEq

def LockCall.queue : LockCall → CoQueueId
  | mutexLock m => .mutex m
  | rdlock l => .rwlock l
  | wrlock l => .rwlock l
  | wait q => .plain q

/-- Where a coroutine is : outside of these functions, suspended in a wait, or entered again
but not yet past the wait. -/
inductive LockPc where
  | user
  | waiting (call : LockCall)
  | entered (call : LockCall)
  deriving DecidableEq

structure LockState where
  /-- the entries of each queue -/
  queue : CoQueueId → List ℕ
  /-- `co_queue_wakeup` of each coroutine -/
  wakeup : ℕ → List ℕ
  locked : ℕ → Bool
  writer : ℕ → Bool
  reader : ℕ → ℤ
  pc : ℕ → LockPc
  /-- who has returned from `qemu_co_mutex_lock` and not unlocked -/
  mutexHolders : ℕ → List ℕ
  writers : ℕ → List ℕ
  readers : ℕ → List ℕ

open LockState

@[simp] def lockInit : LockState where
  queue _ := []
  wakeup _ := []
  locked _ := false
  writer _ := false
  reader _ := 0
  pc _ := .user
  mutexHolders _ := []
  writers _ := []
  readers _ := []

namespace LockState

variable (s : LockState)

@[simp] def setPc (c : ℕ) (pc : LockPc) : LockState :=
  { s with pc := update s.pc c pc }

/-- `qemu_co_queue_wait`, up to the yield. -/
@[simp] def queueWait (self : ℕ) (call : LockCall) : LockState :=
  { s.setPc self (.waiting call) with
    queue := update s.queue call.queue (s.queue call.queue ++ [self]) }

/-- `qemu_co_queue_do_restart` : the first entry, or all of them, go to the wake-up list. -/
@[simp] def queueDoRestart (self : ℕ) (q : CoQueueId) (single : Bool) : LockState :=
  let next := if single then (s.queue q).take 1 else s.queue q
  { s with
    queue := update s.queue q ((s.queue q).drop next.length)
    wakeup := update s.wakeup self (s.wakeup self ++ next) }

/-- One test of the loop in `qemu_co_mutex_lock`, and what follows it. -/
def mutexLock (self m : ℕ) : LockState :=
  if s.locked m then s.queueWait self (.mutexLock m)
  else
    { s.setPc self .user with
      locked := update s.locked m true
      mutexHolders := update s.mutexHolders m (self :: s.mutexHolders m) }

def mutexUnlock (self m : ℕ) : Option LockState :=
  if s.locked m then
    some (queueDoRestart
      { s with
        locked := update s.locked m false
        mutexHolders := update s.mutexHolders m ((s.mutexHolders m).erase self) }
      self (.mutex m) true)
  else none

def rdlock (self l : ℕ) : LockState :=
  if s.writer l then s.queueWait self (.rdlock l)
  else
    { s.setPc self .user with
      reader := update s.reader l (s.reader l + 1)
      readers := update s.readers l (self :: s.readers l) }

def wrlock (self l : ℕ) : LockState :=
  if s.writer l = true ∨ s.reader l ≠ 0 then s.queueWait self (.wrlock l)
  else
    { s.setPc self .user with
      writer := update s.writer l true
      writers := update s.writers l (self :: s.writers l) }

def rwUnlock (self l : ℕ) : Option LockState :=
  if s.writer l then
    some (queueDoRestart
      { s with
        writer := update s.writer l false
        writers := update s.writers l ((s.writers l).erase self) }
      self (.rwlock l) false)
  else if s.reader l - 1 < 0 then none
  else
    let s' := { s with
      reader := update s.reader l (s.reader l - 1)
      readers := update s.readers l ((s.readers l).erase self) }
    -- only one waiting writer is woken
    some (if s.reader l - 1 = 0 then s'.queueDoRestart self (.rwlock l) true else s')

/-- The first round of `qemu_co_queue_run_restart` : enter the first of the list of `x`. -/
def runRestart (x : ℕ) : Option LockState :=
  match s.wakeup x with
  | [] => none
  | next :: rest =>
    match s.pc next with
    | .waiting call =>
      some { s.setPc next (.entered call) with wakeup := update s.wakeup x rest }
    | _ => none

/-- A coroutine that was entered goes on after its wait. -/
def goOn (c : ℕ) : Option LockState :=
  match s.pc c with
  | .entered (.mutexLock m) => some (s.mutexLock c m)
  | .entered (.rdlock l) => some (s.rdlock c l)
  | .entered (.wrlock l) => some (s.wrlock c l)
  | .entered (.wait _) => some (s.setPc c .user)
  | _ => none

end LockState

inductive LockOp where
  | mutexLock (c m : ℕ)
  | mutexUnlock (c m : ℕ)
  | rdlock (c l : ℕ)
  | wrlock (c l : ℕ)
  | rwUnlock (c l : ℕ)
  | queueWait (c q : ℕ)
  | queueNext (c q : ℕ)
  | queueRestartAll (c q : ℕ)
  | runRestart (x : ℕ)
  | goOn (c : ℕ)

/-- A function is called by a coroutine that is in none. -/
def LockState.call (s : LockState) (c : ℕ) (t : Option LockState) : Option LockState :=
  if s.pc c = .user then t else none

def lockStep : LockOp → LockState → Option LockState
  | .mutexLock c m, s => s.call c (some (s.mutexLock c m))
  | .mutexUnlock c m, s => s.call c (s.mutexUnlock c m)
  | .rdlock c l, s => s.call c (some (s.rdlock c l))
  | .wrlock c l, s => s.call c (some (s.wrlock c l))
  | .rwUnlock c l, s => s.call c (s.rwUnlock c l)
  | .queueWait c q, s => s.call c (some (s.queueWait c (.wait q)))
  | .queueNext c q, s => s.call c (some (s.queueDoRestart c (.plain q) true))
  | .queueRestartAll c q, s => s.call c (some (s.queueDoRestart c (.plain q) false))
  | .runRestart x, s => s.runRestart x
  | .goOn c, s => s.goOn c

/-- Only a holder unlocks. -/
def LockOp.Correct (s : LockState) : LockOp → Prop
  | mutexUnlock c m => c ∈ s.mutexHolders m
  | rwUnlock c l => c ∈ s.writers l ∨ c ∈ s.readers l
  | _ => True

/-! ## The invariant -/

/-- The lists a coroutine can wait on. -/
inductive LockPlace where
  | queue (q : CoQueueId)
  | wakeup (x : ℕ)

namespace LockState

@[simp] def list (s : LockState) : LockPlace → List ℕ
  | .queue q => s.queue q
  | .wakeup x => s.wakeup x

/-- Somebody has the lock of the queue. Nobody has to hold a plain queue. -/
def Held (s : LockState) : CoQueueId → Prop
  | .mutex m => s.locked m = true
  | .rwlock l => s.writer l = true ∨ s.reader l ≠ 0
  | .plain _ => True

/-- A coroutine that waited in the queue was moved to a wake-up list, and has not gone on. -/
def Woken (s : LockState) (q : CoQueueId) : Prop :=
  ∃ w call, call.queue = q ∧
    (s.pc w = .waiting call ∧ (∃ x, w ∈ s.wakeup x) ∨ s.pc w = .entered call)

end LockState

/-- Who is on a list is suspended, and on no other. -/
structure LockLists (s : LockState) : Prop where
  queued : ∀ q, ∀ c ∈ s.queue q, ∃ call, s.pc c = .waiting call ∧ call.queue = q
  woken : ∀ x, ∀ c ∈ s.wakeup x, ∃ call, s.pc c = .waiting call
  nodup : ∀ p, (s.list p).Nodup
  unique : ∀ p p' c, c ∈ s.list p → c ∈ s.list p' → p = p'

/-- The locks count their holders. -/
structure LockHolders (s : LockState) : Prop where
  locked : ∀ m, (s.mutexHolders m).length = (s.locked m).toNat
  writer : ∀ l, (s.writers l).length = (s.writer l).toNat
  reader : ∀ l, s.reader l = (s.readers l).length
  exclusive : ∀ l, s.writer l = true → s.readers l = []

/-- Nobody waits for nothing. -/
structure LockWakes (s : LockState) : Prop where
  queued : ∀ q, s.queue q ≠ [] → s.Held q ∨ s.Woken q
  reader : ∀ l, ∀ c ∈ s.queue (.rwlock l), s.pc c = .waiting (.rdlock l) → s.writer l = true

structure LockInv (s : LockState) : Prop where
  lists : LockLists s
  holders : LockHolders s
  wakes : LockWakes s

/-! ## Lists -/

section Lists

variable {s t : LockState} {c : ℕ}

theorem LockLists.disjoint (h : LockLists s) : DisjointLists s.list := ⟨h.nodup, h.unique⟩

theorem LockLists.congr (h : LockLists s) (hq : t.queue = s.queue) (hwake : t.wakeup = s.wakeup)
    (hpc : t.pc = s.pc) : LockLists t := by
  obtain ⟨queue, wakeup, _, _, _, pc, _, _, _⟩ := t
  obtain rfl : queue = s.queue := hq
  obtain rfl : wakeup = s.wakeup := hwake
  obtain rfl : pc = s.pc := hpc
  exact ⟨h.queued, h.woken, h.nodup, h.unique⟩

section

variable (h : LockLists s) (hc : ∀ call, s.pc c ≠ .waiting call)
include h hc

theorem LockLists.not_listed (p : LockPlace) : c ∉ s.list p := by
  intro hmem
  cases p with
  | queue q =>
    obtain ⟨call, hcall, -⟩ := h.queued q c hmem
    exact hc call hcall
  | wakeup x =>
    obtain ⟨call, hcall⟩ := h.woken x c hmem
    exact hc call hcall

/-- A coroutine on no list may be anywhere. -/
theorem LockLists.setPc (pc : LockPc) : LockLists (s.setPc c pc) := by
  have hne : ∀ p, ∀ w ∈ s.list p, (s.setPc c pc).pc w = s.pc w := by
    intro p w hw
    have : w ≠ c := fun heq => h.not_listed hc p (heq ▸ hw)
    simp [this]
  refine ⟨fun q w hw => ?_, fun x w hw => ?_, h.nodup, h.unique⟩
  · rw [hne (.queue q) w hw]
    exact h.queued q w hw
  · rw [hne (.wakeup x) w hw]
    exact h.woken x w hw

theorem LockLists.queueWait (call : LockCall) : LockLists (s.queueWait c call) := by
  obtain ⟨t, ht⟩ := @exists_eq _ (s.queueWait c call)
  rw [← ht]
  have hq : t.list (.queue call.queue) = s.list (.queue call.queue) ++ [c] :=
    ht ▸ update_self _ _ _
  have hne : ∀ p ≠ .queue call.queue, t.list p = s.list p := by
    rw [ht]
    rintro (q | x) hp
    · exact update_of_ne (ne_of_apply_ne _ hp) _ _
    · rfl
  have hpc : ∀ w, t.pc w = if w = c then .waiting call else s.pc w := by
    intro w
    rw [ht]
    exact update_apply ..
  have hout := h.not_listed hc
  obtain ⟨hnodup, hunique⟩ := h.disjoint.concat hout hq hne
  refine ⟨fun q w hw => ?_, fun x w hw => ?_, hnodup, hunique⟩
  · rcases mem_concat hq hne (q := .queue q) hw with hold | ⟨rfl, heq⟩
    · rw [hpc, if_neg (ne_of_mem_of_not_mem hold (hout (.queue q)))]
      exact h.queued q w hold
    · rw [hpc, if_pos rfl]
      exact ⟨call, rfl, (LockPlace.queue.inj heq).symm⟩
  · have hold : w ∈ s.list (.wakeup x) := hne (.wakeup x) (by simp) ▸ hw
    rw [hpc, if_neg (ne_of_mem_of_not_mem hold (hout (.wakeup x)))]
    exact h.woken x w hold

end

/-- Entries move from the front of a queue to the end of a wake-up list. -/
theorem LockLists.queueDoRestart (h : LockLists s) (self : ℕ) (q : CoQueueId) (single : Bool) :
    LockLists (s.queueDoRestart self q single) := by
  obtain ⟨next, hnext⟩ := @exists_eq _ (if single then (s.queue q).take 1 else s.queue q)
  obtain ⟨left, hleft⟩ := @exists_eq _ ((s.queue q).drop next.length)
  have hsplit : s.list (.queue q) = next ++ left := by
    rw [hleft, hnext, list]
    cases single
    · simp
    · cases s.queue q <;> simp
  obtain ⟨t, ht⟩ := @exists_eq _ (s.queueDoRestart self q single)
  have hfrom : t.list (.queue q) = left := by
    rw [ht, hleft, hnext]
    exact update_self _ _ _
  have hto : t.list (.wakeup self) = s.list (.wakeup self) ++ next := by
    rw [ht, hnext]
    exact update_self _ _ _
  have hne : ∀ p, p ≠ .queue q → p ≠ .wakeup self → t.list p = s.list p := by
    rw [ht]
    rintro (r | x) hr hx
    · exact update_of_ne (ne_of_apply_ne _ hr) _ _
    · exact update_of_ne (ne_of_apply_ne _ hx) _ _
  have hpc : t.pc = s.pc := by rw [ht]; rfl
  have hold := fun {p w} => h.disjoint.mem_move (w := w) (r := p) (by simp) hsplit hfrom hto hne
  obtain ⟨hnodup, hunique⟩ := h.disjoint.move (by simp) hsplit hfrom hto hne
  rw [← ht]
  refine ⟨fun r w hw => ?_, fun x w hw => ?_, hnodup, hunique⟩
  · rw [hpc]
    obtain ⟨_, hw, ⟨rfl, -⟩ | ⟨hr, -⟩⟩ := hold (p := .queue r) hw
    · exact h.queued r w hw
    · cases hr
  · rw [hpc]
    obtain ⟨_, hw, ⟨rfl, -⟩ | ⟨-, rfl, -⟩⟩ := hold (p := .wakeup x) hw
    · exact h.woken x w hw
    · obtain ⟨call, hcall, -⟩ := h.queued q w hw
      exact ⟨call, hcall⟩

/-- The first entry of a wake-up list is entered. -/
theorem LockLists.runRestart (h : LockLists s) {x next rest}
    (hx : s.wakeup x = next :: rest) (pc : LockPc) :
    LockLists { s.setPc next pc with wakeup := update s.wakeup x rest } := by
  obtain ⟨t, ht⟩ := @exists_eq _ { s.setPc next pc with wakeup := update s.wakeup x rest }
  rw [← ht]
  have hnd : (next :: rest).Nodup := hx ▸ h.nodup (.wakeup x)
  have hnext : next ∈ s.list (.wakeup x) := by
    rw [list, hx]
    exact mem_cons_self
  have hsub : ∀ p, (t.list p).Sublist (s.list p) := by
    rw [ht]
    rintro (q | y)
    · exact Sublist.refl _
    · by_cases hy : y = x
      · subst hy
        simp [hx]
      · simp [hy]
  have hne : ∀ p, ∀ w ∈ t.list p, w ≠ next := by
    rintro p w hw rfl
    obtain rfl := h.unique p _ w ((hsub p).subset hw) hnext
    have hw' : w ∈ rest := by
      rw [ht] at hw
      simpa using hw
    exact (nodup_cons.mp hnd).1 hw'
  have hpc : ∀ p, ∀ w ∈ t.list p, t.pc w = s.pc w := by
    intro p w hw
    rw [ht]
    simp [hne p w hw]
  obtain ⟨hnodup, hunique⟩ := h.disjoint.sublist hsub
  refine ⟨fun q w hw => ?_, fun y w hw => ?_, hnodup, hunique⟩
  · rw [hpc (.queue q) w hw]
    exact h.queued q w ((hsub (.queue q)).subset hw)
  · rw [hpc (.wakeup y) w hw]
    exact h.woken y w ((hsub (.wakeup y)).subset hw)

end Lists

/-! ## Wake-ups -/

variable {q : CoQueueId} {call : LockCall}

section Wakes

variable {s t : LockState} {c : ℕ}

/-- The coroutine is in no wait, or was entered again from one on the queue. -/
def InLock (s : LockState) (c : ℕ) (q : CoQueueId) : Prop :=
  s.pc c = .user ∨ ∃ call, s.pc c = .entered call ∧ call.queue = q

theorem InLock.not_waiting (h : InLock s c q) (call : LockCall) : s.pc c ≠ .waiting call := by
  rcases h with h | ⟨call', h, _⟩ <;> rw [h] <;> simp

/-- Only the coroutine moves, and it is not what another queue waits for. -/
theorem LockState.Woken.setPc {q'} (h : s.Woken q') (hne : q' ≠ q) (hc : InLock s c q)
    (hpc : ∀ w ≠ c, t.pc w = s.pc w) (hwake : t.wakeup = s.wakeup) : t.Woken q' := by
  obtain ⟨w, call, hcall, hw⟩ := h
  have hwc : w ≠ c := by
    rintro rfl
    rcases hw with ⟨hw, _⟩ | hw
    · exact hc.not_waiting call hw
    · rcases hc with hc | ⟨call', hc, hq⟩
      · exact absurd (hc.symm.trans hw) (by simp)
      · rw [hc] at hw
        rw [LockPc.entered.inj hw] at hq
        exact hne (hcall.symm.trans hq)
  exact ⟨w, call, hcall, by rw [hpc w hwc, hwake]; exact hw⟩

/-- Only the lock of `q` changes. -/
theorem LockState.Held.other {q'} (h : s.Held q') (hne : q' ≠ q)
    (hm : ∀ m, .mutex m ≠ q → t.locked m = s.locked m)
    (hrw : ∀ l, .rwlock l ≠ q → t.writer l = s.writer l ∧ t.reader l = s.reader l) : t.Held q' := by
  cases q' with
  | mutex m => exact (hm m hne).trans h
  | rwlock l =>
    rw [Held, (hrw l hne).1, (hrw l hne).2]
    exact h
  | plain q => trivial

/-- The coroutine takes the lock of `q`. -/
theorem LockWakes.acquire (h : LockWakes s) (hl : LockLists s) (hc : InLock s c q)
    (hq : t.queue = s.queue) (hwake : t.wakeup = s.wakeup) (hpc : ∀ w ≠ c, t.pc w = s.pc w)
    (hheld : ∀ q' ≠ q, s.Held q' → t.Held q') (hself : t.Held q)
    (hwriter : ∀ l, s.writer l = true → t.writer l = true) : LockWakes t := by
  refine ⟨fun q' hne => ?_, fun l w hw hwpc => ?_⟩
  · rw [hq] at hne
    by_cases hqq : q' = q
    · exact .inl (hqq ▸ hself)
    · rcases h.queued q' hne with hh | hw
      · exact .inl (hheld q' hqq hh)
      · exact .inr (hw.setPc hqq hc hpc hwake)
  · rw [hq] at hw
    have hwc : w ≠ c := ne_of_mem_of_not_mem hw (hl.not_listed hc.not_waiting (.queue (.rwlock l)))
    rw [hpc w hwc] at hwpc
    exact hwriter l (h.reader l w hw hwpc)

/-- The coroutine queues itself because the lock is held. -/
theorem LockWakes.queueWait (h : LockWakes s) (hc : InLock s c call.queue)
    (hheld : s.Held call.queue) (hreader : ∀ l, call = .rdlock l → s.writer l = true) :
    LockWakes (s.queueWait c call) := by
  have hpc : ∀ w ≠ c, (s.queueWait c call).pc w = s.pc w := by
    intro w hw
    simp [hw]
  refine ⟨fun q' hne => ?_, fun l w hw hwpc => ?_⟩
  · by_cases hqq : q' = call.queue
    · left
      rw [hqq]
      revert hheld
      cases call.queue <;> exact id
    · have hne' : s.queue q' ≠ [] := by
        simpa [hqq] using hne
      rcases h.queued q' hne' with hh | hw
      · left
        revert hh
        cases q' <;> exact id
      · exact .inr (hw.setPc hqq hc hpc rfl)
  · by_cases hwc : w = c
    · subst hwc
      have hcall : call = .rdlock l := by
        have hself : (s.queueWait w call).pc w = .waiting call := by
          simp
        rw [hself] at hwpc
        exact LockPc.waiting.inj hwpc
      exact hreader l hcall
    · rw [hpc w hwc] at hwpc
      refine h.reader l w ?_ hwpc
      by_cases hq : CoQueueId.rwlock l = call.queue
      · rw [hq]
        have hw' : w ∈ s.queue call.queue ++ [c] := by
          simpa [hq] using hw
        rcases mem_append.mp hw' with hw' | hw'
        · exact hw'
        · exact absurd (mem_singleton.mp hw') hwc
      · simpa [hq] using hw

/-- An unlock wakes the queue of the lock. Only a writer lets all of them go. -/
theorem LockWakes.restart {single} (h : LockWakes s) (hl : LockLists s)
    (hq : t.queue = s.queue) (hwake : t.wakeup = s.wakeup) (hpc : t.pc = s.pc)
    (hheld : ∀ q' ≠ q, s.Held q' → t.Held q')
    (hwriter : ∀ l, s.writer l = true → t.writer l = true ∨ q = .rwlock l ∧ single = false) :
    LockWakes (t.queueDoRestart c q single) := by
  have hwakes : ∀ x, ∀ w ∈ s.wakeup x, w ∈ (t.queueDoRestart c q single).wakeup x := by
    intro x w hw
    by_cases hx : x = c
    · subst hx
      simp [hwake, hw]
    · simpa [hwake, hx] using hw
  refine ⟨fun q' hne => ?_, fun l w hw hwpc => ?_⟩
  · by_cases hqq : q' = q
    · -- something is left only after a single wake-up, which took the head
      subst hqq
      right
      cases single with
      | false => simp at hne
      | true =>
        cases hlist : s.queue q' with
        | nil => simp [hq, hlist] at hne
        | cons w rest =>
          obtain ⟨call, hcall, hcq⟩ := hl.queued q' w (by simp [hlist])
          refine ⟨w, call, hcq, .inl ⟨?_, c, ?_⟩⟩
          · exact (congrFun hpc w).trans hcall
          · simp [hq, hlist]
    · have hne' : s.queue q' ≠ [] := by
        simpa [hq, hqq] using hne
      rcases h.queued q' hne' with hh | ⟨w, call, hcall, hw⟩
      · left
        have := hheld q' hqq hh
        revert this
        cases q' <;> exact id
      · refine .inr ⟨w, call, hcall, ?_⟩
        have hpcw : (t.queueDoRestart c q single).pc w = s.pc w := congrFun hpc w
        rw [hpcw]
        rcases hw with ⟨hw, x, hx⟩ | hw
        · exact .inl ⟨hw, x, hwakes x w hx⟩
        · exact .inr hw
  · have hpcw : s.pc w = .waiting (.rdlock l) := (congrFun hpc w).symm.trans hwpc
    have hmem : w ∈ s.queue (.rwlock l) := by
      by_cases hqq : CoQueueId.rwlock l = q
      · subst hqq
        have hw' := hw
        simp only [queueDoRestart, update_self, hq] at hw'
        exact mem_of_mem_drop hw'
      · simpa [hq, hqq] using hw
    rcases hwriter l (h.reader l w hmem hpcw) with hwr | ⟨rfl, rfl⟩
    · exact hwr
    · simp at hw

/-- The first entry of a wake-up list is entered. -/
theorem LockWakes.runRestart {x next rest} (h : LockWakes s) (hl : LockLists s)
    (hx : s.wakeup x = next :: rest) (hnext : s.pc next = .waiting call) :
    LockWakes { s.setPc next (.entered call) with wakeup := update s.wakeup x rest } := by
  obtain ⟨t, ht⟩ : ∃ t, t = { s.setPc next (.entered call) with
    wakeup := update s.wakeup x rest } := ⟨_, rfl⟩
  rw [← ht]
  have hself : t.pc next = .entered call := by
    rw [ht]
    simp
  have hpc : ∀ w ≠ next, t.pc w = s.pc w := by
    intro w hw
    rw [ht]
    simp [hw]
  refine ⟨fun q hne => ?_, fun l w hw hwpc => ?_⟩
  · have hne' : s.queue q ≠ [] := by
      rw [ht] at hne
      exact hne
    rcases h.queued q hne' with hh | ⟨w, call', hcall, hw⟩
    · left
      rw [ht]
      revert hh
      cases q <;> exact id
    · right
      by_cases hwn : w = next
      · subst hwn
        have hsame : call = call' := by
          rcases hw with ⟨hw, _⟩ | hw
          · exact LockPc.waiting.inj (hnext.symm.trans hw)
          · exact absurd (hnext.symm.trans hw) (by simp)
        exact ⟨w, call, hsame ▸ hcall, .inr hself⟩
      · refine ⟨w, call', hcall, ?_⟩
        rw [hpc w hwn]
        rcases hw with ⟨hw, y, hy⟩ | hw
        · refine .inl ⟨hw, y, ?_⟩
          rw [ht]
          by_cases hyx : y = x
          · subst hyx
            rw [hx] at hy
            simpa using mem_of_ne_of_mem hwn hy
          · simpa [hyx] using hy
        · exact .inr hw
  · have hw' : w ∈ s.queue (.rwlock l) := by
      rw [ht] at hw
      exact hw
    have hwn : w ≠ next := by
      rintro rfl
      have hmem : w ∈ s.list (.wakeup x) := by
        rw [list, hx]
        exact mem_cons_self
      exact absurd (hl.unique (.queue (.rwlock l)) _ w hw' hmem) (by simp)
    rw [hpc w hwn] at hwpc
    have hwr := h.reader l w hw' hwpc
    rw [ht]
    exact hwr

end Wakes

/-! ## One step -/

section Step

variable {s t : LockState} {c : ℕ}

section

variable (h : LockInv s)
include h

namespace LockInv

theorem queueWait (hc : InLock s c call.queue) (hheld : s.Held call.queue)
    (hreader : ∀ l, call = .rdlock l → s.writer l = true) : LockInv (s.queueWait c call) :=
  ⟨h.lists.queueWait hc.not_waiting call,
    ⟨h.holders.locked, h.holders.writer, h.holders.reader, h.holders.exclusive⟩,
    h.wakes.queueWait hc hheld hreader⟩

theorem acquire (hc : InLock s c q) (hq : t.queue = s.queue) (hwake : t.wakeup = s.wakeup)
    (hpc : t.pc = update s.pc c .user) (hholders : LockHolders t)
    (hm : ∀ m, .mutex m ≠ q → t.locked m = s.locked m)
    (hrw : ∀ l, .rwlock l ≠ q → t.writer l = s.writer l ∧ t.reader l = s.reader l)
    (hself : t.Held q) (hwriter : ∀ l, s.writer l = true → t.writer l = true) : LockInv t := by
  refine ⟨(h.lists.setPc hc.not_waiting .user).congr hq hwake hpc, hholders,
    h.wakes.acquire h.lists hc hq hwake (fun w hw => ?_)
      (fun q' hne hh => hh.other hne hm hrw) hself hwriter⟩
  rw [hpc, update_of_ne hw]

theorem mutexLock {m} (hc : InLock s c (.mutex m)) : LockInv (s.mutexLock c m) := by
  rw [LockState.mutexLock]
  split_ifs with hm
  · exact h.queueWait hc hm (by simp)
  · refine h.acquire hc rfl rfl rfl ⟨fun m' => ?_, h.holders.writer, h.holders.reader,
      h.holders.exclusive⟩ (fun m' hne => ?_) (fun l _ => ⟨rfl, rfl⟩) ?_ fun l hl => hl
    · have hlen := h.holders.locked m'
      by_cases hmm : m' = m
      · subst hmm
        simpa [hm] using hlen
      · simpa [hmm] using hlen
    · simp [ne_of_apply_ne _ hne]
    · simp [Held]

theorem rdlock {l} (hc : InLock s c (.rwlock l)) : LockInv (s.rdlock c l) := by
  rw [LockState.rdlock]
  split_ifs with hw
  · refine h.queueWait hc (.inl hw) fun l' hl' => ?_
    rw [← LockCall.rdlock.inj hl']
    exact hw
  · refine h.acquire hc rfl rfl rfl ⟨h.holders.locked, h.holders.writer, fun l' => ?_,
      fun l' hl' => ?_⟩ (fun m _ => rfl) (fun l' hne => ⟨rfl, ?_⟩) ?_ fun l hl => hl
    · have hlen := h.holders.reader l'
      by_cases hll : l' = l
      · subst hll
        simpa using hlen
      · simpa [hll] using hlen
    · have hll : l' ≠ l := fun heq => hw (heq ▸ hl')
      simpa [hll] using h.holders.exclusive l' hl'
    · simp [ne_of_apply_ne _ hne]
    · have hlen := h.holders.reader l
      right
      simp
      omega

theorem wrlock {l} (hc : InLock s c (.rwlock l)) : LockInv (s.wrlock c l) := by
  rw [LockState.wrlock]
  split_ifs with hw
  · exact h.queueWait hc hw (by simp)
  · push Not at hw
    refine h.acquire hc rfl rfl rfl ⟨h.holders.locked, fun l' => ?_, h.holders.reader,
      fun l' hl' => ?_⟩ (fun m _ => rfl) (fun l' hne => ⟨?_, rfl⟩) (.inl (by simp)) fun l' hl' => ?_
    · have hlen := h.holders.writer l'
      by_cases hll : l' = l
      · subst hll
        simpa [hw.1] using hlen
      · simpa [hll] using hlen
    · by_cases hll : l' = l
      · subst hll
        have hlen := h.holders.reader l'
        rw [hw.2] at hlen
        exact eq_nil_of_length_eq_zero (by exact_mod_cast hlen.symm)
      · exact h.holders.exclusive l' (by simpa [hll] using hl')
    · simp [ne_of_apply_ne _ hne]
    · by_cases hll : l' = l
      · simp [hll]
      · simpa [hll] using hl'

/-- After a change to the lock, its queue is woken. -/
theorem restart {single} (hq : t.queue = s.queue) (hwake : t.wakeup = s.wakeup)
    (hpc : t.pc = s.pc) (hholders : LockHolders t) (hheld : ∀ q' ≠ q, s.Held q' → t.Held q')
    (hwriter : ∀ l, s.writer l = true → t.writer l = true ∨ q = .rwlock l ∧ single = false) :
    LockInv (t.queueDoRestart c q single) := by
  exact ⟨(h.lists.congr hq hwake hpc).queueDoRestart c q single,
    ⟨hholders.locked, hholders.writer, hholders.reader, hholders.exclusive⟩,
    h.wakes.restart h.lists hq hwake hpc hheld hwriter⟩

theorem mutexUnlock {m} (hc : c ∈ s.mutexHolders m) (ht : s.mutexUnlock c m = some t) :
    LockInv t := by
  rw [LockState.mutexUnlock] at ht
  split at ht
  · rename_i hm
    cases ht
    refine h.restart rfl rfl rfl ⟨fun m' => ?_, h.holders.writer, h.holders.reader,
      h.holders.exclusive⟩
      (fun q hq hh => hh.other hq (fun m' hne => ?_) fun l _ => ⟨rfl, rfl⟩) fun l hl => .inl hl
    · have hlen := h.holders.locked m'
      by_cases hmm : m' = m
      · subst hmm
        rw [hm] at hlen
        simp [length_erase_of_mem hc, hlen]
      · simpa [hmm] using hlen
    · simp [ne_of_apply_ne _ hne]
  · cases ht

/-- The writer wakes everybody, the last reader one. -/
theorem rwUnlock {l} (hc : c ∈ s.writers l ∨ c ∈ s.readers l)
    (ht : s.rwUnlock c l = some t) : LockInv t := by
  rw [LockState.rwUnlock] at ht
  by_cases hw : s.writer l = true
  · -- the writer lets everybody go
    rw [if_pos hw] at ht
    cases ht
    have hmem : c ∈ s.writers l := by
      rcases hc with hc | hc
      · exact hc
      · rw [h.holders.exclusive l hw] at hc
        exact absurd hc not_mem_nil
    refine h.restart rfl rfl rfl
      ⟨h.holders.locked, fun l' => ?_, h.holders.reader, fun l' hl' => ?_⟩
      (fun q hq hh => hh.other hq (fun _ _ => rfl) fun l' hne => ⟨?_, rfl⟩) fun l' hl' => ?_
    · have hlen := h.holders.writer l'
      by_cases hll : l' = l
      · subst hll
        rw [hw] at hlen
        simp [length_erase_of_mem hmem, hlen]
      · simpa [hll] using hlen
    · have hll : l' ≠ l := by
        rintro rfl
        simp at hl'
      exact h.holders.exclusive l' (by simpa [hll] using hl')
    · simp [ne_of_apply_ne _ hne]
    · by_cases hll : l' = l
      · exact .inr ⟨by rw [hll], rfl⟩
      · exact .inl (by simpa [hll] using hl')
  · rw [if_neg hw] at ht
    split at ht
    · cases ht
    cases ht
    have hnowriter : s.writers l = [] := by
      have hlen := h.holders.writer l
      rw [Bool.not_eq_true] at hw
      rw [hw] at hlen
      exact eq_nil_of_length_eq_zero hlen
    have hmem : c ∈ s.readers l := by
      rcases hc with hc | hc
      · rw [hnowriter] at hc
        exact absurd hc not_mem_nil
      · exact hc
    have hcount := length_erase_of_mem hmem
    have hholders : LockHolders { s with
        reader := update s.reader l (s.reader l - 1)
        readers := update s.readers l ((s.readers l).erase c) } := by
      refine ⟨h.holders.locked, h.holders.writer, fun l' => ?_, fun l' hl' => ?_⟩
      · have hlen := h.holders.reader l'
        by_cases hll : l' = l
        · subst hll
          simp only [update_self]
          omega
        · simpa [hll] using hlen
      · have hll : l' ≠ l := fun heq => hw (heq ▸ hl')
        simpa [hll] using h.holders.exclusive l' hl'
    have hreader : ∀ l', CoQueueId.rwlock l' ≠ .rwlock l →
        update s.reader l (s.reader l - 1) l' = s.reader l' := fun l' hne =>
      update_of_ne (ne_of_apply_ne _ hne) _ _
    split
    · exact h.restart rfl rfl rfl hholders (fun q hq hh => hh.other hq (fun _ _ => rfl)
        fun l' hne => ⟨rfl, hreader l' hne⟩) fun l' hl' => .inl hl'
    · rename_i hne
      refine ⟨⟨h.lists.queued, h.lists.woken, h.lists.nodup, h.lists.unique⟩, hholders,
        fun q hq => ?_, h.wakes.reader⟩
      by_cases hql : q = .rwlock l
      · subst hql
        exact .inl (.inr (by simpa using hne))
      · rcases h.wakes.queued q hq with hh | hh
        · exact .inl (hh.other hql (fun _ _ => rfl) fun l' hne => ⟨rfl, hreader l' hne⟩)
        · exact .inr hh

theorem goOn (ht : s.goOn c = some t) : LockInv t := by
  rw [LockState.goOn] at ht
  split at ht
  · rename_i m hpc
    cases ht
    exact h.mutexLock (.inr ⟨_, hpc, rfl⟩)
  · rename_i l hpc
    cases ht
    exact h.rdlock (.inr ⟨_, hpc, rfl⟩)
  · rename_i l hpc
    cases ht
    exact h.wrlock (.inr ⟨_, hpc, rfl⟩)
  · rename_i q hpc
    have hc : InLock s c (.plain q) := .inr ⟨_, hpc, rfl⟩
    cases ht
    exact h.acquire hc rfl rfl rfl ⟨h.holders.locked, h.holders.writer, h.holders.reader,
      h.holders.exclusive⟩ (fun m _ => rfl) (fun l _ => ⟨rfl, rfl⟩) trivial fun l hl => hl
  · cases ht

theorem runRestart {x} (ht : s.runRestart x = some t) : LockInv t := by
  rw [LockState.runRestart] at ht
  split at ht
  · cases ht
  · rename_i next rest hx
    split at ht
    · rename_i call hpc
      cases ht
      exact ⟨h.lists.runRestart hx _, ⟨h.holders.locked, h.holders.writer, h.holders.reader,
        h.holders.exclusive⟩, h.wakes.runRestart h.lists hx hpc⟩
    · cases ht

end LockInv

end

end Step

/-! ## Runs -/

theorem LockState.call_eq_some {s t : LockState} {c : ℕ} {r : Option LockState}
    (h : s.call c r = some t) : s.pc c = .user ∧ r = some t := by
  rw [call] at h
  split at h
  · exact ⟨‹_›, h⟩
  · cases h

theorem lockStep_inv {s t : LockState} {op : LockOp} (h : LockInv s) (hop : op.Correct s)
    (hs : lockStep op s = some t) : LockInv t := by
  have hplain : ∀ (c q : ℕ) (single : Bool), LockInv (s.queueDoRestart c (.plain q) single) :=
    fun c q single => h.restart rfl rfl rfl h.holders (fun _ _ hh => hh) fun _ hl => .inl hl
  cases op with
  | mutexLock c m =>
    obtain ⟨hpc, ⟨⟩⟩ := call_eq_some hs
    exact h.mutexLock (.inl hpc)
  | mutexUnlock c m => exact h.mutexUnlock hop (call_eq_some hs).2
  | rdlock c l =>
    obtain ⟨hpc, ⟨⟩⟩ := call_eq_some hs
    exact h.rdlock (.inl hpc)
  | wrlock c l =>
    obtain ⟨hpc, ⟨⟩⟩ := call_eq_some hs
    exact h.wrlock (.inl hpc)
  | rwUnlock c l => exact h.rwUnlock hop (call_eq_some hs).2
  | queueWait c q =>
    obtain ⟨hpc, ⟨⟩⟩ := call_eq_some hs
    exact h.queueWait (.inl hpc) trivial (by simp)
  | queueNext c q =>
    cases (call_eq_some hs).2
    exact hplain c q true
  | queueRestartAll c q =>
    cases (call_eq_some hs).2
    exact hplain c q false
  | runRestart x => exact h.runRestart hs
  | goOn c => exact h.goOn hs

theorem lockInv_init : LockInv lockInit := by
  refine ⟨⟨by simp, by simp, ?_, ?_⟩, ⟨fun _ => rfl, fun _ => rfl,
    fun _ => rfl, fun _ _ => rfl⟩, ⟨by simp, by simp⟩⟩
  · rintro (q | x) <;> exact nodup_nil
  · rintro (q | x) p' c hc <;> exact absurd hc not_mem_nil

/-- Locks exclude, and lose no wake-up, in every state that coroutines can lead to which
only unlock what they hold. -/
theorem coLocks_safe {s : LockState} (h : Reach lockStep (fun s op => op.Correct s) lockInit s) :
    (∀ m, (s.mutexHolders m).length ≤ 1) ∧
    (∀ l, (s.writers l).length ≤ 1 ∧ (s.writers l ≠ [] → s.readers l = [])) ∧
    (∀ m, ∀ c ∈ s.queue (.mutex m), s.mutexHolders m ≠ [] ∨ s.Woken (.mutex m)) ∧
    (∀ l, ∀ c ∈ s.queue (.rwlock l), s.writers l ≠ [] ∨ s.readers l ≠ [] ∨ s.Woken (.rwlock l)) ∧
    ∀ l, ∀ c ∈ s.queue (.rwlock l), s.pc c = .waiting (.rdlock l) → s.writers l ≠ [] := by
  have hinv : LockInv s :=
    Reach.invariant lockInv_init (fun s op t hi hop hs => lockStep_inv hi hop hs) h
  have hle : ∀ b : Bool, b.toNat ≤ 1 := by decide
  have hwriter : ∀ l, s.writer l = true ↔ s.writers l ≠ [] := by
    intro l
    have hlen := hinv.holders.writer l
    rw [← length_pos_iff_ne_nil, hlen]
    cases s.writer l <;> simp
  refine ⟨fun m => hinv.holders.locked m ▸ hle _, fun l => ⟨hinv.holders.writer l ▸ hle _,
    fun hw => hinv.holders.exclusive l ((hwriter l).mpr hw)⟩, fun m c hc => ?_, fun l c hc => ?_,
    fun l c hc hpc => (hwriter l).mp (hinv.wakes.reader l c hc hpc)⟩
  · rcases hinv.wakes.queued _ (ne_nil_of_mem hc) with hh | hh
    · left
      have hlen := hinv.holders.locked m
      rw [← length_pos_iff_ne_nil, hlen, hh]
      exact Nat.one_pos
    · exact Or.inr hh
  · rcases hinv.wakes.queued _ (ne_nil_of_mem hc) with (hh | hh) | hh
    · exact Or.inl ((hwriter l).mp hh)
    · right; left
      intro hnil
      have hlen := hinv.holders.reader l
      rw [hnil] at hlen
      exact hh hlen
    · exact Or.inr (Or.inr hh)

/-- Coroutine 1 unlocks while 2 and 3 wait : 2 was woken, and 3 waits for it. -/
theorem coLocks_safe_two : ∃ s,
    [LockOp.mutexLock 1 0, .mutexLock 2 0, .mutexLock 3 0, .mutexUnlock 1 0].foldlM
      (fun s op => lockStep op s) lockInit = some s ∧
    3 ∈ s.queue (.mutex 0) ∧ s.mutexHolders 0 = [] ∧ s.Woken (.mutex 0) := by
  obtain ⟨s, hs⟩ : ∃ s, [LockOp.mutexLock 1 0, .mutexLock 2 0, .mutexLock 3 0].foldlM
      (fun s op => lockStep op s) lockInit = some s := ⟨_, rfl⟩
  obtain ⟨t, ht⟩ : ∃ t, lockStep (.mutexUnlock 1 0) s = some t := by
    cases hs
    exact ⟨_, rfl⟩
  have hreach : Reach lockStep (fun s op => op.Correct s) lockInit s := by
    refine Reach.foldlM _ (fun op hop s => ?_) Reach.refl hs
    fin_cases hop <;> trivial
  have hholds : 1 ∈ s.mutexHolders 0 := by
    cases hs
    decide
  obtain ⟨_, _, hqueue, _, _⟩ := coLocks_safe (hreach.tail (i := LockOp.mutexUnlock 1 0) hholds ht)
  have h3 : 3 ∈ t.queue (.mutex 0) := by
    cases hs
    cases ht
    decide
  have hfree : t.mutexHolders 0 = [] := by
    cases hs
    cases ht
    decide
  refine ⟨t, ?_, h3, hfree, (hqueue 0 3 h3).resolve_left fun hne => hne hfree⟩
  cases hs
  exact ht

end QemuArm
