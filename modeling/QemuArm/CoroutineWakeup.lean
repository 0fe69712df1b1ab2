import QemuArm.CoroutineInv

/-!
# Wake-ups run when promised

A coroutine resumes from `qemu_coroutine_yield` inside `coroutine_swap`, which then runs
the wake-ups of the coroutine it had yielded to, whatever has become of that one.
`coroutine_wakeups` : as long as this does no harm (`CoDiscipline`), every coroutine moved
to a wake-up list is entered exactly once, after the owner of the list has yielded or
terminated, and `coroutine_swap` reads no list of a deleted coroutine.
`coroutine_wakeups_fail` has a schedule for each of the two that fails.
-/

namespace QemuArm

open List Option CoState CoOp

/-- Wake-up lists do what they promise in the state `s`. -/
structure WakeupsKept (s : CoState) : Prop where
  /-- `coroutine_swap` only reads the list of a coroutine that was not deleted since it
  began -/
  alive : ∀ f frames, (s.co s.current).frames = f :: frames → s.deleted f.target = f.gen
  /-- what it enters next was moved before the owner last yielded or terminated -/
  later : ∀ f frames next wakeup, (s.co s.current).frames = f :: frames →
    (s.co f.target).wakeup = next :: wakeup → next ∉ s.fresh f.target
  /-- it never aborts -/
  runs : (s.co s.current).frames ≠ [] → (coStep .swapRest s).isSome
  /-- what was moved was entered once, or is still on the list -/
  once : ∀ w x, s.moved w x = s.woken w x + (s.co x).wakeup.count w
  /-- what is on a list waits for its owner to yield or terminate, or for a
  `qemu_co_queue_run_restart` that has begun -/
  kept : ∀ x, ∀ w ∈ (s.co x).wakeup, w ∈ s.fresh x ∨
    ∃ c, ∃ f ∈ (s.co c).frames, f.Restarting ∧ f.target = x

/-- User code does not enter a coroutine that waits on a list, coroutines are only entered
when that is safe, and none terminates while its wake-ups are being run. -/
def CoDiscipline (s : CoState) : CoOp → Prop
  | .enter c => ¬s.Listed c ∧ ResumeSafe s c
  | .swapRest => ∀ f frames next wakeup, (s.co s.current).frames = f :: frames →
      (s.co f.target).wakeup = next :: wakeup → ResumeSafe s next
  | .terminate => ∀ c, ∀ f ∈ (s.co c).frames, f.Restarting → f.target ≠ s.current
  | _ => True

/-! ## Runs -/

def CoSafe (s : CoState) : Prop := ∃ rest, CoInv s rest

theorem coSafe_init : CoSafe coInit := by
  refine ⟨[], ⟨⟨rfl, rfl⟩, by simp, by simp, by simp, fun c _ => .inl rfl,
    ⟨?_, ?_, ?_⟩, by simp, by simp, fun c _ => ⟨rfl, rfl⟩, ?_, ?_, ?_, ?_, by simp,
    by simp, by simp⟩⟩
  · rintro (q | x) w hw <;> exact absurd hw not_mem_nil
  · rintro (q | x) <;> exact nodup_nil
  · rintro (q | x) p w hw <;> exact absurd hw not_mem_nil
  · simp [chainFrames]
  · simp [chainFrames]
  · simp [chainFrames]
  · simp

variable {s : CoState}

theorem inUserCode_iff : s.inUserCode = true ↔ (s.co s.current).frames = [] := by
  rw [inUserCode, List.isEmpty_iff]

section Step

variable {s s' : CoState} {rest : List ℕ}

/-- The current coroutine is on no list. -/
theorem CoInv.not_listed_current (h : CoInv s rest) : ¬s.Listed s.current := by
  rw [listed_iff]
  rintro ⟨p, hp⟩
  exact h.waiting_notMem hp mem_cons_self

/-- Only a coroutine without a caller can be entered, and that is not the current one. -/
theorem CoInv.entered (h : CoInv s rest) {c : ℕ} (hs : qemuCoroutineEnter c s = some s') :
    (s.co c).status = .live ∧ (s.co c).caller = none ∧ Entered s s' c := by
  by_cases hne : c = s.current
  · subst hne
    unfold qemuCoroutineEnter at hs
    split at hs
    · cases hs
    · rename_i hlive
      split at hs
      · cases hs
      · rename_i hcaller
        rw [not_isSome_iff_eq_none] at hcaller
        rw [not_not] at hlive
        exact absurd mem_cons_self (h.notMem (by simp [hlive]) hcaller)
  · exact qemuCoroutineEnter_eq_some hs hne

theorem CoInv.step_enter (h : CoInv s rest) {c : ℕ} (hfree : ¬s.Listed c) (hsafe : ResumeSafe s c)
    (hs : qemuCoroutineEnter c s = some s') : CoSafe s' := by
  obtain ⟨hlive, hcaller, he⟩ := h.entered hs
  exact ⟨_, h.enter he hlive hcaller hfree hsafe⟩

/-- Waiting is yielding and then being on the queue. -/
theorem qemuCoQueueWait_eq_some {q : ℕ} (hs : qemuCoQueueWait q s = some s') :
    ∃ s₁, qemuCoroutineYield s = some s₁ ∧
      s' = { s₁ with queue := Function.update s₁.queue q (s₁.queue q ++ [s.current]) } := by
  unfold qemuCoQueueWait qemuCoroutineYield at hs
  unfold qemuCoroutineYield
  dsimp only at hs
  split at hs
  · cases hs
  · cases hs
    exact ⟨_, rfl, rfl⟩

section

variable (h : CoInv s rest) (huser : (s.co s.current).frames = [])
include h huser

theorem CoInv.step_yield (hs : qemuCoroutineYield s = some s') : CoSafe s' := by
  obtain ⟨d, hd, hl⟩ := qemuCoroutineYield_eq_some hs
  obtain ⟨rest', rfl, hne⟩ := h.exists_rest hd
  exact ⟨rest', h.leave (hl hne) huser (by simp)⟩

theorem CoInv.step_wait {q : ℕ} (hs : qemuCoQueueWait q s = some s') : CoSafe s' := by
  obtain ⟨s₁, hs₁, rfl⟩ := qemuCoQueueWait_eq_some hs
  obtain ⟨d, hd, hl⟩ := qemuCoroutineYield_eq_some hs₁
  obtain ⟨rest', rfl, hne⟩ := h.exists_rest hd
  have hl := hl hne
  refine ⟨rest', (h.leave hl huser (by simp)).insert ?_ ?_ ?_⟩
  · rw [hl.switched.status]
    exact h.chain.1
  · rw [hl.self]
  · intro hlisted
    obtain ⟨p, hp⟩ := listed_iff.1 hlisted
    rw [hl.switched.list] at hp
    exact h.not_listed_current (listed_iff.2 ⟨p, hp⟩)

theorem CoInv.step_terminate (hok : CoDiscipline s .terminate)
    (hs : coroutineTerminate s = some s') : CoSafe s' := by
  obtain ⟨d, hd, hl⟩ := coroutineTerminate_eq_some hs
  obtain ⟨rest', rfl, hne⟩ := h.exists_rest hd
  exact ⟨rest', h.leave (hl hne) huser fun _ => hok⟩

end

/-- The code behind a switch that has returned. -/
theorem CoInv.step_swapRest (h : CoInv s rest) (hok : CoDiscipline s .swapRest)
    (hs : coroutineSwapRest s = some s') : CoSafe s' := by
  unfold coroutineSwapRest at hs
  split at hs
  · rename_i target ret gen frames hf
    split at hs
    · rename_i next wakeup hw
      obtain ⟨hinv, hfree⟩ := h.take hw
      refine hinv.step_enter hfree (fun g gs hg => ?_) hs
      have hg' : (s.co next).frames = g :: gs := by
        rw [← hg]
        by_cases hn : next = target
        · subst hn
          simp
        · simp [hn]
      exact hok _ frames next wakeup hf hw g gs hg'
    · rename_i hw
      have hpop := h.pop hf hw
      cases ret with
      | yield =>
        cases hs
        exact ⟨rest, hpop⟩
      | terminate =>
        cases hs
        have hmem : (⟨target, some .terminate, gen⟩ : SwapFrame) ∈
            chainFrames s.co (s.current :: rest) := by
          rw [chainFrames_cons, hf]
          exact mem_cons_self
        obtain ⟨h1, h2, h3⟩ := h.gone _ hmem rfl
        have hne : target ≠ s.current := fun heq => h3 (heq ▸ mem_cons_self)
        have hframes := chainFrames_pop (nodup_cons.1 h.nodup).1 hf
        have hlast := h.last
        rw [hframes] at hlast
        refine ⟨rest, hpop.delete ?_ ?_ ?_ h3 fun g hg hr =>
          (pairwise_cons.1 hlast).1 g hg rfl hr⟩
        · simpa [hne] using hw
        · simpa [hne] using h1
        · simpa [hne] using h2
  · cases hs

end Step

/-- Every step keeps the invariant. -/
theorem CoSafe.step (s : CoState) (op : CoOp) (s' : CoState) (h : CoSafe s)
    (hok : CoDiscipline s op) (hs : coStep op s = some s') : CoSafe s' := by
  obtain ⟨rest, h⟩ := h
  cases op with
  | swapRest => exact h.step_swapRest hok hs
  | create a =>
    obtain ⟨-, hs⟩ := ite_none_right_eq_some.1 hs
    exact ⟨rest, h.create hs⟩
  | enter c =>
    obtain ⟨-, hs⟩ := ite_none_right_eq_some.1 hs
    exact h.step_enter hok.1 hok.2 hs
  | yield =>
    obtain ⟨hu, hs⟩ := ite_none_right_eq_some.1 hs
    exact h.step_yield (inUserCode_iff.1 hu) hs
  | terminate =>
    obtain ⟨hu, hs⟩ := ite_none_right_eq_some.1 hs
    exact h.step_terminate (inUserCode_iff.1 hu) hok hs
  | wait q =>
    obtain ⟨hu, hs⟩ := ite_none_right_eq_some.1 hs
    exact h.step_wait (inUserCode_iff.1 hu) hs
  | next q =>
    obtain ⟨-, hs⟩ := ite_none_right_eq_some.1 hs
    obtain ⟨⟨s₁, b⟩, hs₁, rfl⟩ := map_eq_some_iff.1 hs
    obtain ⟨hin, hs₁⟩ := ite_none_right_eq_some.1 hs₁
    have hres := h.doRestart (isSome_iff_ne_none.1 hin) q true
    rw [some.inj hs₁] at hres
    exact ⟨rest, hres⟩
  | restartAll q =>
    obtain ⟨-, hs⟩ := ite_none_right_eq_some.1 hs
    obtain ⟨hin, hs⟩ := ite_none_right_eq_some.1 hs
    cases hs
    exact ⟨rest, h.doRestart (isSome_iff_ne_none.1 hin) q false⟩

theorem CoInv.wakeupsKept {rest : List ℕ} (h : CoInv s rest) : WakeupsKept s where
  alive f frames hf := h.gen f (by
    rw [chainFrames_cons, hf]
    exact mem_cons_self)
  later f frames next wakeup hf _ := by
    rw [h.fresh_eq_nil (by rw [hf]; exact mem_cons_self)]
    exact not_mem_nil
  runs hne := by
    obtain ⟨⟨target, ret, gen⟩, frames, hf⟩ := exists_cons_of_ne_nil hne
    have hr : ret ≠ none := h.top ⟨target, ret, gen⟩ (by rw [hf]; exact mem_cons_self)
    obtain ⟨ret, rfl⟩ := ne_none_iff_exists'.1 hr
    rw [coStep, coroutineSwapRest, hf]
    dsimp only
    cases hw : (s.co target).wakeup with
    | nil => cases ret <;> rfl
    | cons next wakeup =>
      obtain ⟨hlive, hcaller⟩ := h.lists.waiting (.wakeup target) next (by
        rw [list, hw]
        exact mem_cons_self)
      refine qemuCoroutineEnter_isSome ?_ ?_
      · by_cases hn : next = target
        · subst hn
          simpa using hlive
        · simpa [hn] using hlive
      · by_cases hn : next = target
        · subst hn
          simpa using hcaller
        · simpa [hn] using hcaller
  once := h.once
  kept x w hw := by
    refine (h.kept x w hw).imp id ?_
    rintro ⟨f, hf, hr⟩
    obtain ⟨c, -, hfc⟩ := mem_flatMap.1 hf
    exact ⟨c, f, hfc, hr⟩

/-- In every schedule under the discipline, wake-ups run when promised. -/
theorem coroutine_wakeups (h : Reach coStep CoDiscipline coInit s) : WakeupsKept s := by
  obtain ⟨rest, hinv⟩ := h.invariant coSafe_init CoSafe.step
  exact hinv.wakeupsKept

/-- 1 enters 2, which waits ; 1 wakes it and yields. -/
theorem coroutine_wakeups_two : ∃ s, Reach coStep CoDiscipline coInit s ∧ s.current = 2 ∧
    s.moved 2 1 = 1 ∧ s.woken 2 1 = 1 ∧ WakeupsKept s := by
  have h0 : Reach coStep CoDiscipline coInit coInit := Reach.refl
  have h1 := h0.tail (i := create 1) trivial rfl
  have h2 := h1.tail (i := create 2) trivial rfl
  have h3 := h2.tail (i := enter 1) ⟨by
    rintro (⟨q, hq⟩ | ⟨x, hx⟩)
    · exact absurd hq List.not_mem_nil
    · simp only [CoState.modify, Function.update_apply] at hx
      split_ifs at hx <;> exact absurd hx List.not_mem_nil, fun _ _ hf => nomatch hf⟩ rfl
  have h4 := h3.tail (i := enter 2) ⟨by
    rintro (⟨q, hq⟩ | ⟨x, hx⟩)
    · exact absurd hq List.not_mem_nil
    · simp only [CoState.modify, coroutineSwap, qemuCoroutineSwitch, Function.update_apply] at hx
      split_ifs at hx <;> exact absurd hx List.not_mem_nil, fun _ _ hf => nomatch hf⟩ rfl
  have h5 := h4.tail (i := wait 0) trivial rfl
  have h6 := h5.tail (i := swapRest) (by
    intro f frames next wakeup hf hw
    obtain ⟨rfl, -⟩ := List.cons.inj hf
    cases hw) rfl
  have h7 := h6.tail (i := next 0) trivial rfl
  have h8 := h7.tail (i := yield) trivial rfl
  have h9 := h8.tail (i := swapRest) (by
    intro f frames next wakeup hf hw
    obtain ⟨rfl, -⟩ := List.cons.inj hf
    obtain ⟨rfl, -⟩ := List.cons.inj hw
    intro g gs hg
    obtain ⟨rfl, -⟩ := List.cons.inj hg
    exact ⟨rfl, rfl⟩) rfl
  exact ⟨_, h9, rfl, rfl, rfl, coroutine_wakeups h9⟩

/-! ## Schedules that fail -/

/-- The operations one after the other. -/
def coRun (ops : List CoOp) : Option CoState := ops.foldlM (fun s op => coStep op s) coInit

/-- Coroutine 3 waits on queue 0. Coroutine 1 enters 2, which yields back to it. -/
def yieldBack : List CoOp :=
  [.create 1, .create 2, .create 3, .enter 3, .wait 0, .swapRest, .enter 1, .enter 2, .yield,
    .swapRest]

/-- 1 wakes 3 and then enters 2 again. -/
def wakeAndEnter : List CoOp := yieldBack ++ [.next 0, .enter 2]

/-- 1 terminates, and the leader enters 2. -/
def terminateAndEnter : List CoOp := yieldBack ++ [.terminate, .swapRest, .enter 2]

/-- In the first schedule 2 is about to enter 3, though 1 has not yielded since it woke it.
In the second 2 is about to read the list of 1, which is back in the pool. -/
theorem coroutine_wakeups_fail :
    (∃ s, Reach coStep (fun _ _ => True) coInit s ∧
      (s.co s.current).frames = [⟨1, some .yield, 0⟩] ∧ (s.co 1).wakeup = [3] ∧ s.fresh 1 = [3] ∧
      ¬WakeupsKept s) ∧
    ∃ s, Reach coStep (fun _ _ => True) coInit s ∧
      (s.co s.current).frames = [⟨1, some .yield, 0⟩] ∧ s.deleted 1 = 1 ∧ s.pool = [1] ∧
      ¬WakeupsKept s := by
  have hrun : (coRun wakeAndEnter).map (fun s =>
      ((s.co s.current).frames, (s.co 1).wakeup, s.fresh 1)) =
        some ([⟨1, some .yield, 0⟩], [3], [3]) := by decide +kernel
  have hrun' : (coRun terminateAndEnter).map (fun s =>
      ((s.co s.current).frames, s.deleted 1, s.pool)) =
        some ([⟨1, some .yield, 0⟩], 1, [1]) := by decide +kernel
  obtain ⟨s, hs, heq⟩ := map_eq_some_iff.1 hrun
  obtain ⟨s', hs', heq'⟩ := map_eq_some_iff.1 hrun'
  simp only [Prod.mk.injEq] at heq heq'
  refine ⟨⟨s, Reach.refl.foldlM _ (fun _ _ _ => trivial) hs, heq.1, heq.2.1, heq.2.2, fun h => ?_⟩,
    ⟨s', Reach.refl.foldlM _ (fun _ _ _ => trivial) hs', heq'.1, heq'.2.1, heq'.2.2, fun h => ?_⟩⟩
  · exact h.later _ _ 3 [] heq.1 heq.2.1 (by simp [heq.2.2])
  · have := h.alive _ _ heq'.1
    rw [heq'.2.1] at this
    cases this

/-- Who waits on a list waits on no other and could be entered, and who is in the pool, there once,
is not in use anywhere. -/
theorem coroutine_lists (h : Reach coStep CoDiscipline coInit s) :
    (∀ p, (s.list p).Nodup ∧ ∀ c ∈ s.list p, (qemuCoroutineEnter c s).isSome ∧
      ∀ q, c ∈ s.list q → q = p) ∧
    s.pool.Nodup ∧ ∀ c ∈ s.pool, c ≠ s.current ∧ (s.co c).caller = none ∧ ¬s.Listed c := by
  obtain ⟨rest, hinv⟩ := h.invariant coSafe_init CoSafe.step
  refine ⟨fun p => ⟨hinv.lists.nodup p, fun c hc => ?_⟩, hinv.poolNodup, fun c hc => ?_⟩
  · obtain ⟨hlive, hcaller⟩ := hinv.lists.waiting p c hc
    exact ⟨qemuCoroutineEnter_isSome hlive hcaller, fun q hq => hinv.lists.unique q p c hq hc⟩
  · obtain ⟨hpooled, -, hcaller⟩ := hinv.pool c hc
    refine ⟨fun heq => hinv.pool_notMem hc (heq ▸ mem_cons_self), hcaller, fun hl => ?_⟩
    obtain ⟨p, hp⟩ := listed_iff.1 hl
    have hlive := (hinv.lists.waiting p c hp).1
    rw [hpooled] at hlive
    cases hlive

/-- A new coroutine can be entered : it is on no list and not suspended anywhere. -/
theorem reach_create_enter {s₁ s₂} (h : Reach coStep CoDiscipline coInit s)
    (h₁ : coStep (.create c) s = some s₁) (h₂ : coStep (.enter c) s₁ = some s₂) :
    Reach coStep CoDiscipline coInit s₂ := by
  obtain ⟨rest, hinv⟩ := h.invariant coSafe_init CoSafe.step
  obtain ⟨hnew, hqueue, hwakeup, hframes⟩ : (s.co c).status ≠ .live ∧ s₁.queue = s.queue ∧
      (∀ x, (s₁.co x).wakeup ⊆ (s.co x).wakeup) ∧ (s₁.co c).frames = [] := by
    obtain ⟨-, hs⟩ := ite_none_right_eq_some.1 h₁
    unfold qemuCoroutineCreate at hs
    split at hs
    · rename_i co pool hpool
      split at hs
      · rename_i heq
        subst heq
        cases hs
        obtain ⟨hstatus, hframes, -⟩ := hinv.pool c (by rw [hpool]; exact mem_cons_self)
        refine ⟨by simp [hstatus], rfl, fun x => ?_, by simpa using hframes⟩
        by_cases hx : x = c <;> simp [hx]
      · cases hs
    · obtain ⟨hstatus, hs⟩ := ite_none_right_eq_some.1 hs
      cases hs
      refine ⟨by simp [hstatus], rfl, fun x => ?_, by simp⟩
      by_cases hx : x = c <;> simp [hx]
  have hcreated : Reach coStep CoDiscipline coInit s₁ := h.tail (i := create c) trivial h₁
  refine hcreated.tail (i := enter c) ⟨?_, fun f frames hf => by rw [hframes] at hf; cases hf⟩ h₂
  rintro (⟨q, hq⟩ | ⟨x, hx⟩)
  · rw [hqueue] at hq
    exact hnew (hinv.lists.waiting (.queue q) c hq).1
  · exact hnew (hinv.lists.waiting (.wakeup x) c (hwakeup x hx)).1

/-- With no wake-ups to run, `coroutine_swap` can go on. -/
theorem reach_swapRest {s'} {f : SwapFrame} (h : Reach coStep CoDiscipline coInit s)
    (hf : (s.co s.current).frames = [f] ∧ (s.co f.target).wakeup = [])
    (hs : coStep .swapRest s = some s') : Reach coStep CoDiscipline coInit s' := by
  refine h.tail (i := swapRest) (fun g frames next wakeup hg hnext => ?_) hs
  rw [hf.1] at hg
  obtain ⟨rfl, -⟩ := List.cons.inj hg
  rw [hf.2] at hnext
  cases hnext

/-- With the leader and one more coroutine below, neither of which runs wake-ups, the current one
can terminate. -/
theorem reach_terminate {s' d e} {f g : SwapFrame} (h : Reach coStep CoDiscipline coInit s)
    (hc : (s.co s.current).caller = some d ∧ (s.co s.current).frames = [])
    (hd : (s.co d).caller = some e ∧ (s.co d).frames = [f] ∧ ¬f.Restarting)
    (he : (s.co e).caller = none ∧ (s.co e).frames = [g] ∧ ¬g.Restarting)
    (hs : coStep .terminate s = some s') : Reach coStep CoDiscipline coInit s' := by
  obtain ⟨rest, hinv⟩ := h.invariant coSafe_init CoSafe.step
  refine h.tail (i := terminate) (fun x k hk hr => absurd hr ?_) hs
  by_cases hx : x ∈ s.current :: rest
  · -- the chain of callers is the current coroutine, `d` and `e`
    obtain ⟨rest₁, rfl, -⟩ := hinv.exists_rest hc.1
    have hchain := hinv.chain.2.2.2
    cases rest₁ with
    | nil => exact absurd (hchain.2.symm.trans hd.1) nofun
    | cons e' rest₂ =>
      obtain rfl : e' = e := some.inj (hchain.2.1.symm.trans hd.1)
      have hlast := hchain.2.2.2
      cases rest₂ with
      | cons i rest₃ => exact absurd (hlast.2.1.symm.trans he.1) nofun
      | nil =>
        simp only [mem_cons, not_mem_nil, or_false] at hx
        rcases hx with rfl | rfl | rfl
        · rw [hc.2] at hk
          cases hk
        · rw [hd.2.1, mem_singleton] at hk
          exact hk ▸ hd.2.2
        · rw [he.2.1, mem_singleton] at hk
          exact hk ▸ he.2.2
  · rcases hinv.asleep x hx with hnil | ⟨k', hk', hn⟩
    · rw [hnil] at hk
      cases hk
    · rw [hk', mem_singleton] at hk
      exact hk ▸ hn

/-- 1 enters 2 and 3, which wait, and 4, which terminates; then 1 wakes 2. Now 3 is on the queue, 2
on the list of 1, and 4 in the pool. -/
theorem coroutine_lists_four : ∃ s, Reach coStep CoDiscipline coInit s ∧ s.queue 0 = [3] ∧
    (s.co 1).wakeup = [2] ∧ s.pool = [4] ∧ (qemuCoroutineEnter 2 s).isSome ∧
    (qemuCoroutineEnter 3 s).isSome ∧ ¬s.Listed 4 := by
  have hrun : (do
      let s₁ ← coStep (.create 1) coInit
      let s₂ ← coStep (.enter 1) s₁
      let s₃ ← coStep (.create 2) s₂
      let s₄ ← coStep (.enter 2) s₃
      let s₅ ← coStep (.wait 0) s₄
      let s₆ ← coStep .swapRest s₅
      let s₇ ← coStep (.create 3) s₆
      let s₈ ← coStep (.enter 3) s₇
      let s₉ ← coStep (.wait 0) s₈
      let s₁₀ ← coStep .swapRest s₉
      let s₁₁ ← coStep (.create 4) s₁₀
      let s₁₂ ← coStep (.enter 4) s₁₁
      let s₁₃ ← coStep .terminate s₁₂
      let s₁₄ ← coStep .swapRest s₁₃
      let s₁₅ ← coStep (.next 0) s₁₄
      some (decide (((s₅.co s₅.current).frames = [⟨2, some .yield, 0⟩] ∧ (s₅.co 2).wakeup = []) ∧
        ((s₉.co s₉.current).frames = [⟨3, some .yield, 0⟩] ∧ (s₉.co 3).wakeup = []) ∧
        ((s₁₂.co s₁₂.current).caller = some 1 ∧ (s₁₂.co s₁₂.current).frames = []) ∧
        ((s₁₂.co 1).caller = some 0 ∧ (s₁₂.co 1).frames = [⟨4, none, 0⟩]) ∧
        ((s₁₂.co 0).caller = none ∧ (s₁₂.co 0).frames = [⟨1, none, 0⟩]) ∧
        ((s₁₃.co s₁₃.current).frames = [⟨4, some .terminate, 0⟩] ∧ (s₁₃.co 4).wakeup = []) ∧
        s₁₅.queue 0 = [3] ∧ (s₁₅.co 1).wakeup = [2] ∧ s₁₅.pool = [4]))) = some true := by
    decide +kernel
  simp only [bind_eq_bind, bind_eq_some_iff] at hrun
  obtain ⟨s₁, h₁, s₂, h₂, s₃, h₃, s₄, h₄, s₅, h₅, s₆, h₆, s₇, h₇, s₈, h₈, s₉, h₉, s₁₀, h₁₀, s₁₁,
    h₁₁, s₁₂, h₁₂, s₁₃, h₁₃, s₁₄, h₁₄, s₁₅, h₁₅, hrun⟩ := hrun
  obtain ⟨hf₅, hf₉, hcur, hone, hzero, hf₁₃, hqueue, hwakeup, hpooled⟩ :=
    of_decide_eq_true (some.inj hrun)
  have r₄ := reach_create_enter (reach_create_enter .refl h₁ h₂) h₃ h₄
  have r₆ := reach_swapRest (r₄.tail (i := wait 0) trivial h₅) hf₅ h₆
  have r₈ := reach_create_enter r₆ h₇ h₈
  have r₁₀ := reach_swapRest (r₈.tail (i := wait 0) trivial h₉) hf₉ h₁₀
  have r₁₃ := reach_terminate (reach_create_enter r₁₀ h₁₁ h₁₂) hcur ⟨hone.1, hone.2, by decide⟩
    ⟨hzero.1, hzero.2, by decide⟩ h₁₃
  have r₁₅ := (reach_swapRest r₁₃ hf₁₃ h₁₄).tail (i := CoOp.next 0) trivial h₁₅
  obtain ⟨hlists, -, hpool⟩ := coroutine_lists r₁₅
  exact ⟨s₁₅, r₁₅, hqueue, hwakeup, hpooled,
    ((hlists (.wakeup 1)).2 2 (by rw [list, hwakeup]; exact mem_cons_self)).1,
    ((hlists (.queue 0)).2 3 (by rw [list, hqueue]; exact mem_cons_self)).1,
    (hpool 4 (by rw [hpooled]; exact mem_cons_self)).2.2⟩

end QemuArm
