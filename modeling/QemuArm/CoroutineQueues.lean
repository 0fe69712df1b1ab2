import QemuArm.CoroutineLock
import QemuArm.CoroutineWakeup

/-!
# Coroutines and their queues

`CoroutineLock` has the queues of `qemu-coroutine-lock.c` without the coroutines that run between
two waits. Whatever these do, their queues and wake-up lists are those of a state that the locks
reach (`coroutine_queues`) : a coroutine that is entered from a wake-up list goes on at once, and
the other switches change no list.
-/

namespace QemuArm

open List Option CoState Function

/-- The queues and wake-up lists are the same. Who is on none is in no call of the locks, and the
others are in `qemu_co_queue_wait`. -/
structure SameQueues (s : CoState) (t : LockState) : Prop where
  queue : ∀ q, t.queue (.plain q) = s.queue q
  wakeup : ∀ c, t.wakeup c = (s.co c).wakeup
  user : ∀ c, ¬s.Listed c → t.pc c = .user
  wait : ∀ c call, t.pc c = .waiting call → ∃ q, call = .wait q

/-- A run of the locks from `t` to a state with the queues of `s`. -/
def Follows (t : LockState) (s : CoState) : Prop :=
  ∃ t', Reach lockStep (fun s op => op.Correct s) t t' ∧ SameQueues s t'

section Steps

variable {s s' : CoState} {t : LockState} {rest : List ℕ} {q c : ℕ} (h : SameQueues s t)
include h

/-- Where no list changes, the locks take no step. -/
theorem SameQueues.follows (hqueue : s'.queue = s.queue)
    (hwakeup : ∀ x, (s'.co x).wakeup = (s.co x).wakeup) : Follows t s' := by
  have hlisted : ∀ c, s'.Listed c ↔ s.Listed c := fun c => by simp only [Listed, hqueue, hwakeup]
  exact ⟨t, .refl, fun q => by rw [h.queue, hqueue], fun c => by rw [h.wakeup, hwakeup],
    fun c hc => h.user c fun hl => hc ((hlisted c).2 hl), h.wait⟩

/-- The current coroutine queues itself. -/
theorem SameQueues.queueWait (hcur : ¬s.Listed s.current)
    (hqueue : s'.queue = update s.queue q (s.queue q ++ [s.current]))
    (hwakeup : ∀ x, (s'.co x).wakeup = (s.co x).wakeup) : Follows t s' := by
  refine ⟨t.queueWait s.current (.wait q), Reach.refl.tail (i := .queueWait s.current q) trivial
    (if_pos (h.user _ hcur)), fun q' => ?_, fun x => ?_, fun c hc => ?_, fun c call hc => ?_⟩
  · rw [hqueue]
    simp only [LockState.queueWait, LockCall.queue, update_apply, CoQueueId.plain.injEq]
    rw [h.queue, h.queue]
  · rw [hwakeup]
    exact h.wakeup x
  · have hne : c ≠ s.current := fun heq => hc (.inl ⟨q, by simp [hqueue, heq]⟩)
    have huser : ¬s.Listed c := by
      rintro (⟨q', hq'⟩ | ⟨x, hx⟩)
      · refine hc (.inl ⟨q', ?_⟩)
        rw [hqueue, update_apply]
        split
        · next heq => exact mem_append_left _ (heq ▸ hq')
        · exact hq'
      · exact hc (.inr ⟨x, by rwa [hwakeup]⟩)
    simp [hne, h.user c huser]
  · by_cases heq : c = s.current
    · exact ⟨q, by simpa [heq, eq_comm] using hc⟩
    · exact h.wait c call (by simpa [heq] using hc)

/-- Entries of a queue go to the wake-up list of the current coroutine. -/
theorem SameQueues.doRestart (hcur : ¬s.Listed s.current) (single : Bool) :
    Follows t (qemuCoQueueDoRestart q single s).1 := by
  obtain ⟨next, hnext⟩ := @exists_eq _ (if single then (s.queue q).take 1 else s.queue q)
  have hsplit : ∀ w ∈ s.queue q, w ∈ next ∨ w ∈ (s.queue q).drop next.length := by
    intro w hw
    rw [← mem_append, hnext]
    cases single
    · simpa using hw
    · cases hq : s.queue q <;> simp_all
  obtain ⟨s', hs'⟩ := @exists_eq _ (qemuCoQueueDoRestart q single s).1
  have hqueue : ∀ q', s'.queue q' = if q' = q then (s.queue q).drop next.length
      else s.queue q' := fun q' => by
    rw [hs', hnext]
    exact update_apply ..
  have hwakeup : ∀ x, (s'.co x).wakeup = if x = s.current then (s.co x).wakeup ++ next
      else (s.co x).wakeup := fun x => by
    rw [hs', hnext]
    by_cases hx : x = s.current <;> simp [hx]
  -- who was on the queue is on one of the two lists
  have hlisted : ∀ c, s.Listed c → s'.Listed c := by
    rintro c (⟨q', hq'⟩ | ⟨x, hx⟩)
    · by_cases heq : q' = q
      · rcases hsplit c (heq ▸ hq') with hq' | hq'
        · exact .inr ⟨s.current, by simp [hwakeup, hq']⟩
        · exact .inl ⟨q, by simpa [hqueue] using hq'⟩
      · exact .inl ⟨q', by simpa [hqueue, heq] using hq'⟩
    · refine .inr ⟨x, ?_⟩
      rw [hwakeup]
      split
      · exact mem_append_left _ hx
      · exact hx
  rw [← hs']
  have hstep : lockStep (if single then .queueNext s.current q else .queueRestartAll s.current q)
      t = some (t.queueDoRestart s.current (.plain q) single) := by
    cases single <;> exact if_pos (h.user _ hcur)
  refine ⟨_, Reach.refl.tail (by cases single <;> exact trivial) hstep, fun q' => ?_, fun x => ?_,
    fun c hc => h.user c fun hl => hc (hlisted c hl), h.wait⟩
  · rw [hqueue, hnext]
    simp only [LockState.queueDoRestart, update_apply, CoQueueId.plain.injEq, h.queue]
  · rw [hwakeup, hnext]
    simp only [LockState.queueDoRestart, update_apply, h.queue, h.wakeup]
    split
    · next hx => rw [hx]
    · rfl

/-- The first of a wake-up list is entered and goes on. -/
theorem SameQueues.runRestart (hlists : LockLists t) {x next wakeup}
    (hx : (s.co x).wakeup = next :: wakeup) (hqueue : s'.queue = s.queue)
    (hwakeup : ∀ y, (s'.co y).wakeup = if y = x then wakeup else (s.co y).wakeup) :
    Follows t s' := by
  obtain ⟨call, hcall⟩ := hlists.woken x next (by rw [h.wakeup, hx]; exact mem_cons_self)
  obtain ⟨q, rfl⟩ := h.wait next call hcall
  have hrun : lockStep (.runRestart x) t = some { t.setPc next (.entered (.wait q)) with
      wakeup := update t.wakeup x wakeup } := by
    simp [lockStep, LockState.runRestart, h.wakeup, hx, hcall]
  have hgo : lockStep (.goOn next) { t.setPc next (.entered (.wait q)) with
      wakeup := update t.wakeup x wakeup } =
        some { t.setPc next .user with wakeup := update t.wakeup x wakeup } := by
    simp [lockStep, LockState.goOn]
  refine ⟨_, (Reach.refl.tail (i := .runRestart x) trivial hrun).tail (i := .goOn next) trivial hgo,
    fun q' => ?_, fun y => ?_, fun c hc => ?_, fun c call hc => ?_⟩
  · rw [hqueue]
    exact h.queue q'
  · rw [hwakeup, ← h.wakeup]
    exact update_apply ..
  · by_cases hne : c = next
    · simp [hne]
    · have huser : ¬s.Listed c := by
        rintro (hq | ⟨y, hy⟩)
        · exact hc (.inl (hqueue ▸ hq))
        · refine hc (.inr ⟨y, ?_⟩)
          rw [hwakeup]
          split
          · next heq => exact (mem_cons.1 (hx ▸ heq ▸ hy)).resolve_left hne
          · exact hy
      simp [hne, h.user c huser]
  · by_cases hne : c = next
    · simp [hne] at hc
    · exact h.wait c call (by simpa [hne] using hc)

omit h in
theorem wakeup_update {co : Coroutine} (h : co.wakeup = (s.co c).wakeup) (x : ℕ) :
    (update s.co c co x).wakeup = (s.co x).wakeup := by
  by_cases hx : x = c
  · subst hx
    simpa using h
  · simp [hx]

/-- A new coroutine has an empty list, as it had before. -/
theorem SameQueues.create (hinv : CoInv s rest)
    (hs : qemuCoroutineCreate c s = some s') : Follows t s' := by
  have hidle : (s.co c).status ≠ .live → (s.co c).wakeup = [] := fun hn => (hinv.idle c hn).1
  unfold qemuCoroutineCreate at hs
  split at hs
  · next co pool hpool =>
    obtain ⟨heq, hs'⟩ := ite_none_right_eq_some.1 hs
    have hstatus := (hinv.pool c (by rw [hpool, heq]; exact mem_cons_self)).1
    obtain rfl := some.inj hs'
    exact h.follows rfl (wakeup_update (hidle (by simp [hstatus])).symm)
  · obtain ⟨hfree, hs⟩ := ite_none_right_eq_some.1 hs
    obtain rfl := some.inj hs
    exact h.follows rfl (wakeup_update (hidle (by simp [hfree])).symm)

/-- `coroutine_swap` goes on : it enters the next of the list, or returns. -/
theorem SameQueues.swapRest (hlists : LockLists t) (hinv : CoInv s rest)
    (hs : coroutineSwapRest s = some s') : Follows t s' := by
  unfold coroutineSwapRest at hs
  split at hs
  · rename_i target ret gen frames hf
    split at hs
    · rename_i next wakeup hw
      obtain ⟨hinv', -⟩ := hinv.take hw
      have hsw := (hinv'.entered hs).2.2.switched
      refine h.runRestart hlists hw hsw.queue fun y => ?_
      rw [hsw.wakeup]
      by_cases hy : y = target <;> simp [hy]
    · rename_i hw
      have hpop : ∀ x, ((s.modify s.current fun co => { co with frames := frames }).co x).wakeup =
          (s.co x).wakeup := wakeup_update rfl
      cases ret with
      | yield =>
        obtain rfl := some.inj hs
        exact h.follows rfl hpop
      | terminate =>
        obtain rfl := some.inj hs
        unfold coroutineDelete
        dsimp only
        split
        · refine h.follows rfl fun x => Eq.trans ?_ (hpop x)
          refine wakeup_update ?_ x
          rfl
        · refine h.follows rfl fun x => Eq.trans ?_ (hpop x)
          exact wakeup_update ((hpop target).trans hw).symm x
  · cases hs

/-- A step of the coroutines is at most two of the locks. -/
theorem SameQueues.step (hlists : LockLists t) (hinv : CoInv s rest) {op}
    (hs : coStep op s = some s') : Follows t s' := by
  cases op with
  | create a =>
    obtain ⟨-, hs⟩ := ite_none_right_eq_some.1 hs
    exact h.create hinv hs
  | enter c =>
    obtain ⟨-, hs⟩ := ite_none_right_eq_some.1 hs
    have hsw := (hinv.entered hs).2.2.switched
    exact h.follows hsw.queue hsw.wakeup
  | yield =>
    obtain ⟨-, hs⟩ := ite_none_right_eq_some.1 hs
    obtain ⟨d, hd, hl⟩ := qemuCoroutineYield_eq_some hs
    obtain ⟨-, -, hne⟩ := hinv.exists_rest hd
    exact h.follows (hl hne).switched.queue (hl hne).switched.wakeup
  | terminate =>
    obtain ⟨-, hs⟩ := ite_none_right_eq_some.1 hs
    obtain ⟨d, hd, hl⟩ := coroutineTerminate_eq_some hs
    obtain ⟨-, -, hne⟩ := hinv.exists_rest hd
    exact h.follows (hl hne).switched.queue (hl hne).switched.wakeup
  | wait q =>
    obtain ⟨-, hs⟩ := ite_none_right_eq_some.1 hs
    obtain ⟨s₁, hs₁, rfl⟩ := qemuCoQueueWait_eq_some hs
    obtain ⟨d, hd, hl⟩ := qemuCoroutineYield_eq_some hs₁
    obtain ⟨-, -, hne⟩ := hinv.exists_rest hd
    have hsw := (hl hne).switched
    exact h.queueWait hinv.not_listed_current (by rw [hsw.queue]) hsw.wakeup
  | next q =>
    obtain ⟨-, hs⟩ := ite_none_right_eq_some.1 hs
    obtain ⟨⟨s₁, b⟩, hs₁, rfl⟩ := map_eq_some_iff.1 hs
    obtain ⟨-, hs₁⟩ := ite_none_right_eq_some.1 hs₁
    have hnext := h.doRestart (q := q) hinv.not_listed_current true
    rwa [some.inj hs₁] at hnext
  | restartAll q =>
    obtain ⟨-, hs⟩ := ite_none_right_eq_some.1 hs
    obtain ⟨-, hs⟩ := ite_none_right_eq_some.1 hs
    cases hs
    exact h.doRestart hinv.not_listed_current false
  | swapRest => exact h.swapRest hlists hinv hs

end Steps

/-- The lists of coroutines are those of locks, in every state that is reached. -/
theorem coroutine_queues {s : CoState} (h : Reach coStep CoDiscipline coInit s) :
    Follows lockInit s := by
  have hinit : SameQueues coInit lockInit :=
    ⟨fun _ => rfl, fun _ => rfl, fun _ _ => rfl, nofun⟩
  induction h with
  | refl => exact ⟨lockInit, .refl, hinit⟩
  | tail hreach _ hs ih =>
    obtain ⟨rest, hinv⟩ := hreach.invariant coSafe_init CoSafe.step
    obtain ⟨t, ht, hsame⟩ := ih
    have hlock := ht.invariant lockInv_init fun s op t => lockStep_inv
    obtain ⟨t', ht', hsame'⟩ := hsame.step hlock.lists hinv hs
    exact ⟨t', ht.trans ht', hsame'⟩

end QemuArm
