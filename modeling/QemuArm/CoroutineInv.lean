import QemuArm.Coroutine
import QemuArm.DisjointLists

/-!
# The chain of callers

`CoInv s rest` describes the states that coroutines reach : the current coroutine and
`rest` are the chain of callers down to the leader (`CallChain`), each of them suspended in
the `coroutine_swap` that entered the one above. Entering a coroutine puts it on top of the
chain (`CoInv.enter`), and yielding or terminating takes it off (`CoInv.leave`).

The invariant needs one thing of the code it is about : a coroutine that is entered where
it had yielded runs the wake-ups of the coroutine it yielded to, so that must be harmless
then (`ResumeSafe`).
-/

namespace QemuArm

open List Function Option

/-- `f` is past its switch and runs the wake-ups of its target. -/
def SwapFrame.Restarting (f : SwapFrame) : Prop := f.ret ≠ none

instance (f : SwapFrame) : Decidable f.Restarting := inferInstanceAs (Decidable (_ ≠ _))

/-- The coroutine waits on a queue or a wake-up list. -/
def CoState.Listed (s : CoState) (c : ℕ) : Prop :=
  (∃ q, c ∈ s.queue q) ∨ ∃ x, c ∈ (s.co x).wakeup

open CoState

/-- If the coroutine is suspended in a yield, the one it yielded to was not deleted since,
and has moved nothing to its list since it last yielded or terminated. -/
def ResumeSafe (s : CoState) (c : ℕ) : Prop :=
  ∀ f frames, (s.co c).frames = f :: frames → s.deleted f.target = f.gen ∧ s.fresh f.target = []

/-! ## The chain of callers -/

/-- `rest` are the callers of `c` down to the leader, each suspended in entering the one
before. -/
def CallChain (co : ℕ → Coroutine) : ℕ → List ℕ → Prop
  | c, [] => (co c).status = .leader ∧ (co c).caller = none
  | c, d :: rest => (co c).status = .live ∧ (co c).caller = some d ∧
      (∃ gen frames, (co d).frames = ⟨c, none, gen⟩ :: frames ∧ ∀ f ∈ frames, f.Restarting) ∧
      CallChain co d rest

variable {co co' : ℕ → Coroutine}

theorem CallChain.congr : ∀ {c : ℕ} {rest : List ℕ},
    CallChain co c rest → (co' c).status = (co c).status → (co' c).caller = (co c).caller →
    (∀ x ∈ rest, (co' x).status = (co x).status ∧ (co' x).caller = (co x).caller ∧
      (co' x).frames = (co x).frames) → CallChain co' c rest
  | _, [], h, hs, hc, _ => ⟨hs.trans h.1, hc.trans h.2⟩
  | c, d :: rest, ⟨hlive, hcaller, ⟨gen, frames, hf, hr⟩, hrest⟩, hs, hc, hx => by
    obtain ⟨hds, hdc, hdf⟩ := hx d mem_cons_self
    exact ⟨hs.trans hlive, hc.trans hcaller, ⟨gen, frames, hdf.trans hf, hr⟩,
      hrest.congr hds hdc fun x hxr => hx x (mem_cons_of_mem d hxr)⟩

/-- Everything on the chain has a caller, the leader apart. -/
theorem CallChain.mem : ∀ {c : ℕ} {rest : List ℕ}, CallChain co c rest →
    ∀ x ∈ c :: rest, (co x).status = .leader ∨ (co x).caller ≠ none
  | c, [], h, x, hx => by
    rw [mem_singleton.1 hx]
    exact .inl h.1
  | c, d :: rest, ⟨_, hcaller, _, hrest⟩, x, hx => by
    rcases mem_cons.1 hx with rfl | hx
    · exact .inr (by simp [hcaller])
    · exact hrest.mem x hx

/-- The calls of the coroutines on the chain, innermost first. -/
def chainFrames (co : ℕ → Coroutine) (chain : List ℕ) : List SwapFrame :=
  chain.flatMap fun c => (co c).frames

theorem chainFrames_cons (co : ℕ → Coroutine) (c : ℕ) (chain : List ℕ) :
    chainFrames co (c :: chain) = (co c).frames ++ chainFrames co chain := rfl

theorem chainFrames_congr {chain} (h : ∀ x ∈ chain, (co' x).frames = (co x).frames) :
    chainFrames co' chain = chainFrames co chain :=
  flatMap_congr h

/-- A suspended call on the chain is that of a caller entering the one above. -/
theorem CallChain.suspended : ∀ {c : ℕ} {rest : List ℕ},
    CallChain co c rest → ∀ f ∈ chainFrames co rest, ¬f.Restarting → f.target ∈ c :: rest
  | _, [], _, f, hf, _ => absurd hf not_mem_nil
  | c, d :: rest, ⟨_, _, ⟨gen, frames, hd, hr⟩, hrest⟩, f, hf, hn => by
    rw [chainFrames_cons, hd, cons_append, mem_cons, mem_append] at hf
    rcases hf with rfl | hf | hf
    · exact mem_cons_self
    · exact absurd (hr f hf) hn
    · exact mem_cons_of_mem c (hrest.suspended f hf hn)

/-! ## The invariant -/

/-- The lists a coroutine can wait on. -/
inductive CoPlace where
  | queue (q : ℕ)
  | wakeup (x : ℕ)

def CoState.list (s : CoState) : CoPlace → List ℕ
  | .queue q => s.queue q
  | .wakeup x => (s.co x).wakeup

variable {c : ℕ}

variable {s s' : CoState}

theorem CoState.listed_iff : s.Listed c ↔ ∃ p, c ∈ s.list p :=
  ⟨fun h => h.elim (fun ⟨q, hq⟩ => ⟨.queue q, hq⟩) fun ⟨x, hx⟩ => ⟨.wakeup x, hx⟩, fun ⟨p, hp⟩ =>
    match p, hp with
    | .queue q, hp => .inl ⟨q, hp⟩
    | .wakeup x, hp => .inr ⟨x, hp⟩⟩

/-- The lists : nobody is on two, and who is on one is suspended. -/
structure ListInv (s : CoState) : Prop where
  waiting : ∀ p, ∀ w ∈ s.list p, (s.co w).status = .live ∧ (s.co w).caller = none
  nodup : ∀ p, (s.list p).Nodup
  unique : ∀ p q w, w ∈ s.list p → w ∈ s.list q → p = q

structure CoInv (s : CoState) (rest : List ℕ) : Prop where
  chain : CallChain s.co s.current rest
  nodup : (s.current :: rest).Nodup
  top : ∀ f ∈ (s.co s.current).frames, f.Restarting
  other : ∀ c, ∀ f ∈ (s.co c).frames, f.target ≠ c
  asleep : ∀ c ∉ s.current :: rest, (s.co c).frames = [] ∨
    ∃ f, (s.co c).frames = [f] ∧ ¬f.Restarting
  lists : ListInv s
  pool : ∀ c ∈ s.pool, (s.co c).status = .pooled ∧ (s.co c).frames = [] ∧ (s.co c).caller = none
  poolNodup : s.pool.Nodup
  idle : ∀ c, (s.co c).status ≠ .live → (s.co c).wakeup = [] ∧ (s.co c).caller = none
  gen : ∀ f ∈ chainFrames s.co (s.current :: rest), s.deleted f.target = f.gen
  /-- a coroutine that has terminated is not enterable until it is deleted -/
  gone : ∀ f ∈ chainFrames s.co (s.current :: rest), f.ret = some .terminate →
    (s.co f.target).caller ≠ none ∧ (s.co f.target).frames = [] ∧ f.target ∉ s.current :: rest
  /-- its deletion is the last use of it -/
  last : (chainFrames s.co (s.current :: rest)).Pairwise fun f g =>
    f.ret = some .terminate → g.Restarting → g.target ≠ f.target
  running : ∀ x, s.fresh x ≠ [] → x ∈ s.current :: rest
  /-- nobody runs wake-ups of a coroutine below that has fresh ones -/
  below : (s.current :: rest).Pairwise fun c x => ∀ f ∈ (s.co c).frames, f.Restarting →
    f.target = x → s.fresh x = []
  once : ∀ w x, s.moved w x = s.woken w x + (s.co x).wakeup.count w
  kept : ∀ x, ∀ w ∈ (s.co x).wakeup, w ∈ s.fresh x ∨
    ∃ f ∈ chainFrames s.co (s.current :: rest), f.Restarting ∧ f.target = x

theorem ListInv.disjoint (h : ListInv s) : DisjointLists s.list := ⟨h.nodup, h.unique⟩

/-- Lists that only lose entries, whose coroutines stay as they are -/
theorem ListInv.sublist (h : ListInv s) (hsub : ∀ p, (s'.list p).Sublist (s.list p)) (hco : ∀ p, ∀ w
      ∈ s.list p, (s'.co w).status = (s.co w).status ∧ (s'.co w).caller = (s.co w).caller) :
    ListInv s' := by
  obtain ⟨hnodup, hunique⟩ := h.disjoint.sublist hsub
  refine ⟨fun p w hw => ?_, hnodup, hunique⟩
  have hw' := (hsub p).subset hw
  rw [(hco p w hw').1, (hco p w hw').2]
  exact h.waiting p w hw'

namespace CoInv

variable {s s' : CoState} {rest : List ℕ}

/-- Who is alive and has no caller is not on the chain. -/
theorem notMem (h : CoInv s rest) (hlive : (s.co c).status ≠ .leader)
    (hcaller : (s.co c).caller = none) : c ∉ s.current :: rest := by
  intro hc
  rcases h.chain.mem c hc with hl | hn
  · exact hlive hl
  · exact hn hcaller

theorem waiting_notMem (h : CoInv s rest) {p w} (hw : w ∈ s.list p) : w ∉ s.current :: rest := by
  obtain ⟨hlive, hcaller⟩ := h.lists.waiting p w hw
  exact h.notMem (by simp [hlive]) hcaller

theorem pool_notMem (h : CoInv s rest) (hc : c ∈ s.pool) : c ∉ s.current :: rest := by
  obtain ⟨hs, -, hcaller⟩ := h.pool c hc
  exact h.notMem (by simp [hs]) hcaller

end CoInv

/-! ## Switching -/

section Switch

/-- What entering and leaving have in common : the coroutines keep their lists, and all but `c`
their callers. -/
structure Switched (s s' : CoState) (c : ℕ) : Prop where
  status : ∀ x, (s'.co x).status = (s.co x).status
  wakeup : ∀ x, (s'.co x).wakeup = (s.co x).wakeup
  caller : ∀ x ≠ c, (s'.co x).caller = (s.co x).caller
  queue : s'.queue = s.queue
  moved : s'.moved = s.moved
  woken : s'.woken = s.woken

namespace Switched

variable {rest : List ℕ} (hs : Switched s s' c)
include hs

theorem list (p : CoPlace) : s'.list p = s.list p := by
  cases p with
  | queue q => exact congrFun hs.queue q
  | wakeup x => exact hs.wakeup x

/-- Who waits on a list keeps its place. -/
theorem lists (h : ListInv s) (hfree : ∀ p, c ∉ s.list p) : ListInv s' :=
  h.sublist (fun p => by rw [hs.list]) fun p w hw =>
    ⟨hs.status w, hs.caller w fun heq => hfree p (heq ▸ hw)⟩

theorem idle (h : CoInv s rest) (hlive : (s.co c).status = .live) (x : ℕ)
    (hx : (s'.co x).status ≠ .live) : (s'.co x).wakeup = [] ∧ (s'.co x).caller = none := by
  rw [hs.status] at hx
  rw [hs.wakeup, hs.caller x fun heq => hx (heq ▸ hlive)]
  exact h.idle x hx

theorem once (h : CoInv s rest) (w x : ℕ) :
    s'.moved w x = s'.woken w x + (s'.co x).wakeup.count w := by
  rw [hs.moved, hs.woken, hs.wakeup]
  exact h.once w x

end Switched

end Switch

/-! ## Entering -/

/-- `s'` is `s` after its current coroutine has switched to `c` to enter it. -/
structure Entered (s s' : CoState) (c : ℕ) : Prop where
  current : s'.current = c
  target : s'.co c = { s.co c with
    caller := some s.current, frames := resumed .yield (s.co c).frames }
  self : s'.co s.current = { s.co s.current with
    frames := ⟨c, none, s.deleted c⟩ :: (s.co s.current).frames }
  others : ∀ x, x ≠ c → x ≠ s.current → s'.co x = s.co x
  pool : s'.pool = s.pool
  queue : s'.queue = s.queue
  deleted : s'.deleted = s.deleted
  fresh : s'.fresh = s.fresh
  moved : s'.moved = s.moved
  woken : s'.woken = s.woken

theorem qemuCoroutineEnter_eq_some (h : qemuCoroutineEnter c s = some s') (hne : c ≠ s.current) :
    (s.co c).status = .live ∧ (s.co c).caller = none ∧ Entered s s' c := by
  unfold qemuCoroutineEnter at h
  split at h
  · cases h
  · rename_i hlive
    split at h
    · cases h
    · rename_i hcaller
      cases h
      refine ⟨not_not.1 hlive, by simpa using hcaller, ⟨rfl, ?_, ?_, fun x hx hx' => ?_, rfl, rfl,
        rfl, rfl, rfl, rfl⟩⟩
      · simp [hne]
      · simp [hne.symm]
      · simp [hx, hx']

theorem qemuCoroutineEnter_isSome (hlive : (s.co c).status = .live)
    (hcaller : (s.co c).caller = none) : (qemuCoroutineEnter c s).isSome := by
  simp [qemuCoroutineEnter, hlive, hcaller]

section Enter

variable {s s' : CoState} {rest : List ℕ} {c : ℕ}

theorem Entered.switched (he : Entered s s' c) : Switched s s' c := by
  have hsame : ∀ x, (s'.co x).status = (s.co x).status ∧ (s'.co x).wakeup = (s.co x).wakeup ∧
      (x ≠ c → (s'.co x).caller = (s.co x).caller) := by
    intro x
    by_cases hx : x = c
    · subst hx
      rw [he.target]
      exact ⟨rfl, rfl, fun h => absurd rfl h⟩
    by_cases hx' : x = s.current
    · subst hx'
      rw [he.self]
      exact ⟨rfl, rfl, fun _ => rfl⟩
    · rw [he.others x hx hx']
      exact ⟨rfl, rfl, fun _ => rfl⟩
  exact ⟨fun x => (hsame x).1, fun x => (hsame x).2.1, fun x => (hsame x).2.2, he.queue, he.moved,
    he.woken⟩

/-- Where the calls after entering come from. -/
theorem Entered.mem_frames (he : Entered s s' c) {x f} (hf : f ∈ (s'.co x).frames) :
    x = c ∧ f ∈ resumed .yield (s.co c).frames ∨ x = s.current ∧ f = ⟨c, none, s.deleted c⟩ ∨
      x ≠ c ∧ f ∈ (s.co x).frames := by
  by_cases hx : x = c
  · subst hx
    rw [he.target] at hf
    exact .inl ⟨rfl, hf⟩
  by_cases hx' : x = s.current
  · subst hx'
    rw [he.self] at hf
    exact .inr ((mem_cons.1 hf).imp (fun hf => ⟨rfl, hf⟩) fun hf => ⟨hx, hf⟩)
  · rw [he.others x hx hx'] at hf
    exact .inr (.inr ⟨hx, hf⟩)

/-- The calls on the chain : those that `c` goes on with, the one that enters it, and the calls
from before. -/
theorem Entered.chainFrames_eq (he : Entered s s' c) (hc : c ∉ s.current :: rest)
    (hnodup : (s.current :: rest).Nodup) : chainFrames s'.co (s'.current :: s.current :: rest) =
      resumed .yield (s.co c).frames ++
        (⟨c, none, s.deleted c⟩ :: chainFrames s.co (s.current :: rest)) := by
  have hsame : ∀ x ∈ rest, (s'.co x).frames = (s.co x).frames := fun x hx => by
    rw [he.others x (fun heq => hc (heq ▸ mem_cons_of_mem _ hx))
      fun heq => (nodup_cons.1 hnodup).1 (heq ▸ hx)]
  rw [he.current, chainFrames_cons, chainFrames_cons, chainFrames_cons, he.target, he.self,
    chainFrames_congr hsame]
  rfl

/-- A suspended coroutine goes on with the wake-ups of the one it had yielded to. -/
theorem mem_resumed_asleep {action frames} (h : frames = [] ∨ ∃ f, frames = [f] ∧ ¬f.Restarting) {g}
    (hg : g ∈ resumed action frames) : ∃ f, frames = [f] ∧ g = { f with ret := some action } := by
  rcases h with rfl | ⟨f, rfl, -⟩
  · exact absurd hg not_mem_nil
  · exact ⟨f, rfl, mem_singleton.1 hg⟩

theorem CoInv.of_resumed (h : CoInv s rest) (hc : c ∉ s.current :: rest)
    (hsafe : ResumeSafe s c) {g} (hg : g ∈ resumed .yield (s.co c).frames) :
    g.ret = some .yield ∧ g.target ≠ c ∧
      s.deleted g.target = g.gen ∧ s.fresh g.target = [] := by
  obtain ⟨f, hf, rfl⟩ := mem_resumed_asleep (h.asleep c hc) hg
  obtain ⟨hgen, hfresh⟩ := hsafe f [] hf
  exact ⟨rfl, h.other c f (by simp [hf]), hgen, hfresh⟩

/-- Entering keeps the invariant. -/
theorem CoInv.enter (h : CoInv s rest) (he : Entered s s' c) (hlive : (s.co c).status = .live)
    (hcaller : (s.co c).caller = none) (hfree : ¬s.Listed c) (hsafe : ResumeSafe s c) :
    CoInv s' (s.current :: rest) := by
  have hc : c ∉ s.current :: rest := h.notMem (by simp [hlive]) hcaller
  have hne : c ≠ s.current := fun heq => hc (heq ▸ mem_cons_self)
  have hsw := he.switched
  have hframes := he.chainFrames_eq hc h.nodup
  have hres := fun g => @CoInv.of_resumed s rest c h hc hsafe g
  have hyield : ∀ g ∈ resumed .yield (s.co c).frames, g.ret ≠ some .terminate := fun g hg => by
    rw [(hres g hg).1]
    simp
  constructor
  case chain =>
    refine ⟨?_, ?_, ⟨s.deleted c, (s.co s.current).frames, ?_, h.top⟩, ?_⟩
    · rw [he.current, hsw.status, hlive]
    · rw [he.current, he.target]
    · rw [he.current, he.self]
    · refine h.chain.congr (hsw.status _) (hsw.caller _ hne.symm) fun x hx => ?_
      rw [he.others x (fun heq => hc (heq ▸ mem_cons_of_mem _ hx))
        fun heq => (nodup_cons.1 h.nodup).1 (heq ▸ hx)]
      exact ⟨rfl, rfl, rfl⟩
  case nodup =>
    rw [he.current]
    exact nodup_cons.2 ⟨hc, h.nodup⟩
  case top =>
    intro f hf
    rw [he.current, he.target] at hf
    rw [SwapFrame.Restarting, (hres f hf).1]
    simp
  case other =>
    intro x f hf
    rcases he.mem_frames hf with ⟨rfl, hf⟩ | ⟨rfl, rfl⟩ | ⟨-, hf⟩
    · exact (hres f hf).2.1
    · exact hne
    · exact h.other x f hf
  case asleep =>
    intro x hx
    rw [he.current, mem_cons, mem_cons, not_or, not_or] at hx
    rw [he.others x hx.1 hx.2.1]
    exact h.asleep x (by simp [hx.2])
  case lists => exact hsw.lists h.lists fun p hp => hfree (listed_iff.2 ⟨p, hp⟩)
  case pool =>
    intro x hx
    rw [he.pool] at hx
    have hxm := h.pool_notMem hx
    obtain ⟨h1, h2, h3⟩ := h.pool x hx
    rw [he.others x (by rintro rfl; simp [hlive] at h1) (by rintro rfl; simp at hxm)]
    exact ⟨h1, h2, h3⟩
  case poolNodup =>
    rw [he.pool]
    exact h.poolNodup
  case idle => exact hsw.idle h hlive
  case gen =>
    intro f hf
    rw [hframes, mem_append, mem_cons] at hf
    rw [he.deleted]
    rcases hf with hf | rfl | hf
    · exact (hres f hf).2.2.1
    · rfl
    · exact h.gen f hf
  case gone =>
    intro f hf hret
    rw [hframes, mem_append, mem_cons] at hf
    have hold := (hf.resolve_left fun hf => hyield f hf hret).resolve_left
      (by rintro rfl; cases hret)
    obtain ⟨h1, h2, h3⟩ := h.gone f hold hret
    have hfc : f.target ≠ c := fun heq => h1 (heq ▸ hcaller)
    rw [he.others _ hfc (by rintro heq; simp [heq] at h3), he.current]
    exact ⟨h1, h2, fun hm => (mem_cons.1 hm).elim hfc h3⟩
  case last =>
    rw [hframes]
    refine pairwise_append.2 ⟨?_, pairwise_cons.2 ⟨nofun, h.last⟩,
      fun f hf g _ hret => absurd hret (hyield f hf)⟩
    exact Pairwise.imp_of_mem (fun hf _ _ hret => absurd hret (hyield _ hf))
      (pairwise_of_forall fun _ _ => trivial)
  case running =>
    intro x hx
    rw [he.fresh] at hx
    exact mem_cons_of_mem _ (h.running x hx)
  case below =>
    rw [he.fresh]
    refine pairwise_cons.2 ⟨fun x _ f hf _ heq => ?_,
      h.below.imp_of_mem fun {a x} ha _ hax f hf hr heq => ?_⟩
    · rw [he.current, he.target] at hf
      rw [← heq]
      exact (hres f hf).2.2.2
    · rcases he.mem_frames hf with ⟨rfl, -⟩ | ⟨-, rfl⟩ | ⟨-, hf⟩
      · exact absurd ha hc
      · exact absurd rfl hr
      · exact hax f hf hr heq
  case once => exact hsw.once h
  case kept =>
    intro x w hw
    rw [hsw.wakeup] at hw
    rw [he.fresh, hframes]
    exact (h.kept x w hw).imp_right fun ⟨f, hf, hr⟩ =>
      ⟨f, mem_append_right _ (mem_cons_of_mem _ hf), hr⟩

end Enter

/-! ## Yielding and terminating -/

/-- `s'` is `s` after its current coroutine has switched back to its caller. -/
structure Left (s s' : CoState) (caller : ℕ) (action : CoroutineAction) : Prop where
  current : s'.current = caller
  target : s'.co caller = { s.co caller with frames := resumed action (s.co caller).frames }
  self : s'.co s.current = match action with
    | .yield => { s.co s.current with
        caller := none, frames := ⟨caller, none, s.deleted caller⟩ :: (s.co s.current).frames }
    | .terminate => s.co s.current
  others : ∀ x, x ≠ caller → x ≠ s.current → s'.co x = s.co x
  pool : s'.pool = s.pool
  queue : s'.queue = s.queue
  deleted : s'.deleted = s.deleted
  fresh : s'.fresh = Function.update s.fresh s.current []
  moved : s'.moved = s.moved
  woken : s'.woken = s.woken

theorem qemuCoroutineYield_eq_some (h : qemuCoroutineYield s = some s') :
    ∃ caller, (s.co s.current).caller = some caller ∧
      (caller ≠ s.current → Left s s' caller .yield) := by
  unfold qemuCoroutineYield at h
  split at h
  · cases h
  · rename_i caller hcaller
    cases h
    refine ⟨caller, hcaller, fun hne => ⟨rfl, ?_, ?_, fun x hx hx' => ?_, rfl, rfl, rfl, rfl, rfl,
      rfl⟩⟩
    · simp [hne]
    · simp [hne.symm]
    · simp [hx, hx']

theorem coroutineTerminate_eq_some (h : coroutineTerminate s = some s') :
    ∃ caller, (s.co s.current).caller = some caller ∧
      (caller ≠ s.current → Left s s' caller .terminate) := by
  unfold coroutineTerminate at h
  split at h
  · cases h
  · rename_i caller hcaller
    cases h
    refine ⟨caller, hcaller, fun hne => ⟨rfl, ?_, ?_, fun x hx hx' => ?_, rfl, rfl, rfl, rfl, rfl,
      rfl⟩⟩
    · simp
    · simp [hne.symm]
    · simp [hx]

section Leave

variable {s s' : CoState} {rest : List ℕ} {d : ℕ} {action : CoroutineAction}

theorem Left.switched (hl : Left s s' d action) : Switched s s' s.current := by
  have hsame : ∀ x, (s'.co x).status = (s.co x).status ∧ (s'.co x).wakeup = (s.co x).wakeup ∧
      (x ≠ s.current → (s'.co x).caller = (s.co x).caller) := by
    intro x
    by_cases hx : x = s.current
    · subst hx
      rw [hl.self]
      cases action <;> exact ⟨rfl, rfl, fun h => absurd rfl h⟩
    by_cases hx' : x = d
    · subst hx'
      rw [hl.target]
      exact ⟨rfl, rfl, fun _ => rfl⟩
    · rw [hl.others x hx' hx]
      exact ⟨rfl, rfl, fun _ => rfl⟩
  exact ⟨fun x => (hsame x).1, fun x => (hsame x).2.1, fun x => (hsame x).2.2, hl.queue, hl.moved,
    hl.woken⟩

/-- Where the calls after leaving come from. -/
theorem Left.mem_frames (hl : Left s s' d action) {gen fs}
    (hfs : (s.co d).frames = ⟨s.current, none, gen⟩ :: fs) {x f} (hf : f ∈ (s'.co x).frames) :
    x = d ∧ f = ⟨s.current, some action, gen⟩ ∨
      x = s.current ∧ action = .yield ∧ f = ⟨d, none, s.deleted d⟩ ∨ f ∈ (s.co x).frames := by
  by_cases hx : x = d
  · subst hx
    rw [hl.target, hfs] at hf
    rcases mem_cons.1 hf with rfl | hf
    · exact .inl ⟨rfl, rfl⟩
    · exact .inr (.inr (by rw [hfs]; exact mem_cons_of_mem _ hf))
  by_cases hx' : x = s.current
  · subst hx'
    rw [hl.self] at hf
    cases action with
    | yield => exact .inr ((mem_cons.1 hf).imp (fun hf => ⟨rfl, rfl, hf⟩) id)
    | terminate => exact .inr (.inr hf)
  · rw [hl.others x hx hx'] at hf
    exact .inr (.inr hf)

/-- The caller goes on with its call, and those below have theirs. -/
theorem Left.chainFrames_eq (hl : Left s s' d action) {gen fs}
    (hfs : (s.co d).frames = ⟨s.current, none, gen⟩ :: fs)
    (hnodup : (s.current :: d :: rest).Nodup) : chainFrames s'.co (s'.current :: rest) =
      ⟨s.current, some action, gen⟩ :: (fs ++ chainFrames s.co rest) := by
  obtain ⟨hself, hnodup⟩ := nodup_cons.1 hnodup
  have hsame : ∀ x ∈ rest, (s'.co x).frames = (s.co x).frames := fun x hx => by
    rw [hl.others x (fun heq => (nodup_cons.1 hnodup).1 (heq ▸ hx))
      fun heq => hself (heq ▸ mem_cons_of_mem d hx)]
  rw [hl.current, chainFrames_cons, hl.target, hfs, chainFrames_congr hsame]
  rfl

/-- Who has a caller is above that caller on the chain. -/
theorem CoInv.exists_rest (h : CoInv s rest) (hd : (s.co s.current).caller = some d) :
    ∃ rest', rest = d :: rest' ∧ d ≠ s.current := by
  have hchain := h.chain
  cases rest with
  | nil =>
    rw [hchain.2] at hd
    cases hd
  | cons e rest' =>
    obtain rfl : e = d := some.inj (hchain.2.1.symm.trans hd)
    refine ⟨rest', rfl, ?_⟩
    rintro rfl
    exact (nodup_cons.1 h.nodup).1 mem_cons_self

/-- Switching back to the caller keeps the invariant : the caller now runs the wake-ups of
the coroutine that stopped. -/
theorem CoInv.leave (h : CoInv s (d :: rest)) (hl : Left s s' d action)
    (huser : (s.co s.current).frames = []) (hterm : action = .terminate →
      ∀ c, ∀ f ∈ (s.co c).frames, f.Restarting → f.target ≠ s.current) : CoInv s' rest := by
  obtain ⟨hlive, hcaller, ⟨gen, fs, hfs, hr⟩, hrest⟩ := h.chain
  obtain ⟨hself, hnodup⟩ := nodup_cons.1 h.nodup
  have hne : d ≠ s.current := fun heq => hself (heq ▸ mem_cons_self)
  have hsw := hl.switched
  have hnew := hl.chainFrames_eq hfs h.nodup
  have hold : chainFrames s.co (s.current :: d :: rest) =
      ⟨s.current, none, gen⟩ :: (fs ++ chainFrames s.co rest) := by
    rw [chainFrames_cons, chainFrames_cons, huser, hfs]
    rfl
  have hsub : ∀ f ∈ fs ++ chainFrames s.co rest, f ∈ chainFrames s.co (s.current :: d :: rest) := by
    intro f hf
    rw [hold]
    exact mem_cons_of_mem _ hf
  have hfresh : ∀ x, s'.fresh x = if x = s.current then [] else s.fresh x := fun x => by
    rw [hl.fresh, update_apply]
  constructor
  case chain =>
    rw [hl.current]
    refine hrest.congr (hsw.status d) (hsw.caller d hne) fun x hx => ?_
    rw [hl.others x (fun heq => (nodup_cons.1 hnodup).1 (heq ▸ hx))
      fun heq => hself (heq ▸ mem_cons_of_mem d hx)]
    exact ⟨rfl, rfl, rfl⟩
  case nodup =>
    rw [hl.current]
    exact hnodup
  case top =>
    intro f hf
    rw [hl.current, hl.target, hfs] at hf
    rcases mem_cons.1 hf with rfl | hf
    · exact some_ne_none _
    · exact hr f hf
  case other =>
    intro x f hf
    rcases hl.mem_frames hfs hf with ⟨rfl, rfl⟩ | ⟨rfl, -, rfl⟩ | hf
    · exact hne.symm
    · exact hne
    · exact h.other x f hf
  case asleep =>
    intro x hx
    rw [hl.current, mem_cons, not_or] at hx
    by_cases hxs : x = s.current
    · subst hxs
      rw [hl.self]
      cases action with
      | yield => exact .inr ⟨_, by rw [huser], by simp [SwapFrame.Restarting]⟩
      | terminate => exact .inl huser
    · rw [hl.others x hx.1 hxs]
      exact h.asleep x (by simp [hx, hxs])
  case lists => exact hsw.lists h.lists fun p hp => h.waiting_notMem hp mem_cons_self
  case pool =>
    intro x hx
    rw [hl.pool] at hx
    have hxm := h.pool_notMem hx
    rw [hl.others x (by rintro rfl; simp at hxm) (by rintro rfl; simp at hxm)]
    exact h.pool x hx
  case poolNodup =>
    rw [hl.pool]
    exact h.poolNodup
  case idle => exact hsw.idle h hlive
  case gen =>
    intro f hf
    rw [hl.deleted]
    rw [hnew] at hf
    rcases mem_cons.1 hf with rfl | hf
    · exact h.gen ⟨s.current, none, gen⟩ (by rw [hold]; exact mem_cons_self)
    · exact h.gen f (hsub f hf)
  case gone =>
    intro f hf hret
    rw [hnew] at hf
    rw [hl.current]
    rcases mem_cons.1 hf with rfl | hf
    · obtain rfl : action = .terminate := some.inj hret
      rw [hl.self]
      exact ⟨by simp [hcaller], huser, hself⟩
    · obtain ⟨h1, h2, h3⟩ := h.gone f (hsub f hf) hret
      rw [mem_cons, mem_cons, not_or, not_or] at h3
      rw [hl.others _ h3.2.1 h3.1]
      exact ⟨h1, h2, by simp [h3.2]⟩
  case last =>
    rw [hnew]
    have hlast := h.last
    rw [hold] at hlast
    refine pairwise_cons.2 ⟨fun g hg hret hgr => ?_, (pairwise_cons.1 hlast).2⟩
    obtain ⟨c, -, hgc⟩ := mem_flatMap.1 (hsub g hg)
    exact hterm (some.inj hret) c g hgc hgr
  case running =>
    intro x hx
    rw [hfresh] at hx
    split at hx
    · exact absurd rfl hx
    · next hxs =>
      rw [hl.current]
      exact (mem_cons.1 (h.running x hx)).resolve_left hxs
  case below =>
    rw [hl.current]
    refine (pairwise_cons.1 h.below).2.imp_of_mem fun {a x} ha hx hax f hf hfr heq => ?_
    rw [hfresh]
    split
    · rfl
    next hxs =>
    rcases hl.mem_frames hfs hf with ⟨-, rfl⟩ | ⟨rfl, -⟩ | hf
    · exact absurd heq.symm hxs
    · exact absurd ha hself
    · exact hax f hf hfr heq
  case once => exact hsw.once h
  case kept =>
    intro x w hw
    rw [hsw.wakeup] at hw
    rw [hnew, hfresh]
    split
    · next hxs => exact .inr ⟨_, mem_cons_self, some_ne_none _, hxs.symm⟩
    · refine (h.kept x w hw).imp_right fun ⟨f, hf, hfr, hfx⟩ => ⟨f, ?_, hfr, hfx⟩
      rw [hold] at hf
      exact mem_cons_of_mem _ ((mem_cons.1 hf).resolve_left fun heq => hfr (heq ▸ rfl))

end Leave

/-! ## The chain stays in place -/

/-- The chain is the same in `s'`, and calls are at most gone. -/
structure SameChain (s s' : CoState) (rest : List ℕ) : Prop where
  current : s'.current = s.current
  co : ∀ x ∈ s.current :: rest, (s'.co x).status = (s.co x).status ∧
    (s'.co x).caller = (s.co x).caller
  frames : ∀ x, (s'.co x).frames.Sublist (s.co x).frames
  callers : ∀ x ∈ rest, (s'.co x).frames = (s.co x).frames
  off : ∀ x ∉ s.current :: rest, (s'.co x).frames = (s.co x).frames ∨ (s'.co x).frames = []
  target : ∀ g ∈ chainFrames s.co (s.current :: rest), s'.deleted g.target = s.deleted g.target ∧
    (g.ret = some .terminate → (s'.co g.target).caller = (s.co g.target).caller)
  fresh : ∀ x ≠ s.current, s'.fresh x = s.fresh x

theorem chainFrames_sublist (h : ∀ x, (co' x).frames.Sublist (co x).frames) :
    ∀ chain, (chainFrames co' chain).Sublist (chainFrames co chain)
  | [] => Sublist.refl _
  | x :: chain => (h x).append (chainFrames_sublist h chain)

/-- What is left to show when the chain of callers stays as it is. -/
theorem CoInv.of_sameChain {rest} (h : CoInv s rest) (hs : SameChain s s' rest)
    (hlists : ListInv s') (hpool : ∀ c ∈ s'.pool, (s'.co c).status = .pooled ∧
      (s'.co c).frames = [] ∧ (s'.co c).caller = none) (hnodup : s'.pool.Nodup)
    (hidle : ∀ c, (s'.co c).status ≠ .live → (s'.co c).wakeup = [] ∧ (s'.co c).caller = none)
    (honce : ∀ w x, s'.moved w x = s'.woken w x + (s'.co x).wakeup.count w)
    (hkept : ∀ x, ∀ w ∈ (s'.co x).wakeup, w ∈ s'.fresh x ∨
      ∃ f ∈ chainFrames s'.co (s.current :: rest), f.Restarting ∧ f.target = x) :
    CoInv s' rest := by
  have hsub := chainFrames_sublist hs.frames (s.current :: rest)
  have hrest : ∀ x ∈ rest, s'.fresh x = s.fresh x := fun x hx =>
    hs.fresh x fun heq => (nodup_cons.1 h.nodup).1 (heq ▸ hx)
  constructor <;> try rw [hs.current]
  case chain =>
    obtain ⟨hself, hco⟩ := forall_mem_cons.1 hs.co
    exact h.chain.congr hself.1 hself.2 fun x hx => ⟨(hco x hx).1, (hco x hx).2, hs.callers x hx⟩
  case nodup => exact h.nodup
  case top => exact fun g hg => h.top g ((hs.frames _).subset hg)
  case other => exact fun y g hg => h.other y g ((hs.frames y).subset hg)
  case asleep =>
    intro y hy
    rcases hs.off y hy with heq | heq
    · rw [heq]
      exact h.asleep y hy
    · exact .inl heq
  case lists => exact hlists
  case pool => exact hpool
  case poolNodup => exact hnodup
  case idle => exact hidle
  case gen => exact fun g hg => (hs.target g (hsub.subset hg)).1.trans (h.gen g (hsub.subset hg))
  case gone =>
    intro g hg hret
    obtain ⟨h1, h2, h3⟩ := h.gone g (hsub.subset hg) hret
    rw [(hs.target g (hsub.subset hg)).2 hret]
    exact ⟨h1, sublist_nil.1 (h2 ▸ hs.frames _), h3⟩
  case last => exact h.last.sublist hsub
  case running =>
    intro y hy
    by_cases heq : y = s.current
    · exact heq ▸ mem_cons_self
    · exact h.running y (hs.fresh y heq ▸ hy)
  case below =>
    obtain ⟨htop, htail⟩ := pairwise_cons.1 h.below
    refine pairwise_cons.2 ⟨fun y hy f hf => ?_, htail.imp_of_mem fun {a y} _ hy hay f hf => ?_⟩
    · rw [hrest y hy]
      exact htop y hy f ((hs.frames _).subset hf)
    · rw [hrest y hy]
      exact hay f ((hs.frames a).subset hf)
  case once => exact honce
  case kept => exact hkept

/-! ## Lists -/

section Lists

variable {s : CoState} {rest : List ℕ}

/-- Changes to the lists alone keep the invariant if the list part of it is kept. -/
theorem CoInv.of_lists {s'} (h : CoInv s rest)
    (hco : ∀ y, (s'.co y).status = (s.co y).status ∧ (s'.co y).caller = (s.co y).caller ∧
      (s'.co y).frames = (s.co y).frames)
    (hcur : s'.current = s.current) (hpool : s'.pool = s.pool) (hdel : s'.deleted = s.deleted)
    (hlists : ListInv s') (hidle : ∀ y, (s.co y).status ≠ .live → (s'.co y).wakeup = [])
    (hfresh : ∀ y ≠ s.current, s'.fresh y = s.fresh y)
    (honce : ∀ w x, s'.moved w x = s'.woken w x + (s'.co x).wakeup.count w)
    (hkept : ∀ x, ∀ w ∈ (s'.co x).wakeup, w ∈ s'.fresh x ∨ w ∈ (s.co x).wakeup ∧
      (w ∈ s.fresh x → w ∈ s'.fresh x)) : CoInv s' rest := by
  refine h.of_sameChain ⟨hcur, fun x _ => ⟨(hco x).1, (hco x).2.1⟩, fun x => by rw [(hco x).2.2],
    fun x _ => (hco x).2.2, fun x _ => .inl (hco x).2.2,
    fun g _ => ⟨by rw [hdel], fun _ => (hco _).2.1⟩, hfresh⟩ hlists (fun y hy => ?_)
    (hpool ▸ h.poolNodup) (fun y hy => ?_) honce fun y w hw => ?_
  · rw [(hco y).1, (hco y).2.1, (hco y).2.2]
    exact h.pool y (hpool ▸ hy)
  · rw [(hco y).1] at hy
    exact ⟨hidle y hy, (hco y).2.1.trans (h.idle y hy).2⟩
  · rw [chainFrames_congr fun y _ => (hco y).2.2]
    rcases hkept y w hw with hf | ⟨hold, hmono⟩
    · exact .inl hf
    · exact (h.kept y w hold).imp hmono id

/-- A suspended coroutine can be put on a queue. -/
theorem CoInv.insert (h : CoInv s rest) {w q} (hlive : (s.co w).status = .live)
    (hcaller : (s.co w).caller = none) (hfree : ¬s.Listed w) :
    CoInv { s with queue := update s.queue q (s.queue q ++ [w]) } rest := by
  obtain ⟨s', hs'⟩ := @exists_eq _ { s with queue := update s.queue q (s.queue q ++ [w]) }
  have hq : s'.list (.queue q) = s.list (.queue q) ++ [w] := hs' ▸ update_self _ _ _
  have hne : ∀ p ≠ .queue q, s'.list p = s.list p := by
    subst hs'
    rintro (r | x) hp
    · exact update_of_ne (ne_of_apply_ne _ hp) _ _
    · rfl
  obtain ⟨hnodup, hunique⟩ :=
    h.lists.disjoint.concat (fun p hp => hfree (listed_iff.2 ⟨p, hp⟩)) hq hne
  have hlists : ListInv s' := by
    refine ⟨fun p v hv => ?_, hnodup, hunique⟩
    have hco : s'.co = s.co := by rw [hs']
    rw [hco]
    rcases DisjointLists.mem_concat hq hne hv with hv | ⟨rfl, -⟩
    · exact h.lists.waiting p v hv
    · exact ⟨hlive, hcaller⟩
  subst hs'
  exact { h with lists := hlists }

/-- `qemu_co_queue_run_restart` takes the first entry off a list that has no fresh ones. -/
theorem CoInv.take (h : CoInv s rest) {x next wakeup} (hx : (s.co x).wakeup = next :: wakeup) :
    CoInv { s.modify x (fun co => { co with wakeup := wakeup }) with
      woken := fun w y => if w = next ∧ y = x then s.woken w y + 1 else s.woken w y } rest ∧
    ¬Listed { s.modify x (fun co => { co with wakeup := wakeup }) with
      woken := fun w y => if w = next ∧ y = x then s.woken w y + 1 else s.woken w y } next := by
  obtain ⟨s', hs'⟩ : ∃ s' : CoState,
      s' = { s.modify x (fun co => { co with wakeup := wakeup }) with
        woken := fun w y => if w = next ∧ y = x then s.woken w y + 1 else s.woken w y } := ⟨_, rfl⟩
  have hco : ∀ y, (s'.co y).status = (s.co y).status ∧ (s'.co y).caller = (s.co y).caller ∧
      (s'.co y).frames = (s.co y).frames ∧ (y ≠ x → (s'.co y).wakeup = (s.co y).wakeup) := by
    intro y
    subst hs'
    by_cases hy : y = x
    · subst hy
      simp
    · simp [hy]
  have hxw : (s'.co x).wakeup = wakeup := by
    subst hs'
    simp
  have hlist : ∀ p, s'.list p = s.list p ∨ p = .wakeup x ∧ s.list p = next :: s'.list p := by
    intro p
    cases p with
    | queue q =>
      subst hs'
      exact .inl rfl
    | wakeup y =>
      by_cases hy : y = x
      · subst hy
        exact .inr ⟨rfl, hx.trans (by rw [list, hxw])⟩
      · exact .inl ((hco y).2.2.2 hy)
  have hsub : ∀ p, (s'.list p).Sublist (s.list p) := by
    intro p
    rcases hlist p with heq | ⟨-, heq⟩
    · rw [heq]
    · rw [heq]
      exact sublist_cons_self _ _
  rw [← hs']
  have hfree : ¬s'.Listed next := by
    rw [listed_iff]
    rintro ⟨p, hp⟩
    have hpx := h.lists.unique p (.wakeup x) next ((hsub p).subset hp) (by simp [list, hx])
    subst hpx
    have hnd := h.lists.nodup (.wakeup x)
    rw [list, hx, ← hxw] at hnd
    exact (nodup_cons.1 hnd).1 hp
  refine ⟨h.of_lists (fun y => ⟨(hco y).1, (hco y).2.1, (hco y).2.2.1⟩) (by rw [hs']; rfl)
    (by rw [hs']; rfl) (by rw [hs']; rfl)
    (h.lists.sublist hsub fun _ w _ => ⟨(hco w).1, (hco w).2.1⟩) (fun y hy => ?_)
    (fun y _ => by rw [hs']; rfl) (fun w y => ?_) fun y w hw => ?_, hfree⟩
  · exact sublist_nil.1 ((h.idle y hy).1 ▸ hsub (.wakeup y))
  · have hone := h.once w y
    by_cases hy : y = x
    · subst hy
      rw [hxw]
      subst hs'
      rw [hx, count_cons] at hone
      show s.moved w y = (if w = next ∧ y = y then s.woken w y + 1 else s.woken w y) + _
      by_cases hw : w = next
      · rw [if_pos ⟨hw, rfl⟩, hone, if_pos (by simp [hw])]
        omega
      · rw [if_neg (fun hwy => hw hwy.1), hone, if_neg (by simpa using Ne.symm hw)]
        omega
    · rw [(hco y).2.2.2 hy]
      subst hs'
      show s.moved w y = (if w = next ∧ y = x then _ else s.woken w y) + _
      rw [if_neg fun hwy => hy hwy.2]
      exact hone
  · refine .inr ⟨(hsub (.wakeup y)).subset hw, fun hf => ?_⟩
    rw [hs']
    exact hf

/-- `qemu_co_queue_next` and `qemu_co_queue_restart_all` move entries of a queue to the list
of the current coroutine, which counts them as fresh. -/
theorem CoInv.doRestart (h : CoInv s rest) (hcaller : (s.co s.current).caller ≠ none)
    (q : ℕ) (single : Bool) : CoInv (qemuCoQueueDoRestart q single s).1 rest := by
  obtain ⟨s', hs'⟩ := @exists_eq _ ((qemuCoQueueDoRestart q single s).1)
  obtain ⟨next, hnext⟩ := @exists_eq _ (if single then (s.queue q).take 1 else s.queue q)
  obtain ⟨left, hsplit⟩ : ∃ left, s.queue q = next ++ left := by
    cases single with
    | true => exact ⟨(s.queue q).drop 1, by rw [hnext, if_pos rfl, take_append_drop]⟩
    | false => exact ⟨[], by simp [hnext]⟩
  have hlive : (s.co s.current).status = .live := by
    by_contra hl
    exact hcaller (h.idle _ hl).2
  have hco : ∀ y, (s'.co y).status = (s.co y).status ∧ (s'.co y).caller = (s.co y).caller ∧
      (s'.co y).frames = (s.co y).frames ∧
      (s'.co y).wakeup = if y = s.current then (s.co y).wakeup ++ next else (s.co y).wakeup := by
    intro y
    subst hs' hnext
    by_cases hy : y = s.current
    · subst hy
      simp
    · simp [hy]
  have hfrom : s'.list (.queue q) = left := by
    subst hs'
    show update s.queue q ((s.queue q).drop
      (if single then (s.queue q).take 1 else s.queue q).length) q = _
    rw [update_self, ← hnext, hsplit, drop_left]
  have hto : s'.list (.wakeup s.current) = s.list (.wakeup s.current) ++ next := by
    rw [list, (hco _).2.2.2, if_pos rfl, list]
  have hne : ∀ p, p ≠ .queue q → p ≠ .wakeup s.current → s'.list p = s.list p := by
    rintro (r | x) hr hx
    · subst hs'
      exact update_of_ne (ne_of_apply_ne _ hr) _ _
    · rw [list, (hco x).2.2.2, if_neg (ne_of_apply_ne _ hx), list]
  have hold : s.list (.queue q) = next ++ left := hsplit
  have hdisj := h.lists.disjoint
  obtain ⟨hnodup, hunique⟩ := hdisj.move (by simp) hold hfrom hto hne
  rw [← hs']
  refine h.of_lists (fun y => ⟨(hco y).1, (hco y).2.1, (hco y).2.2.1⟩) (by rw [hs']; rfl)
    (by rw [hs']; rfl) (by rw [hs']; rfl) ⟨fun p w hw => ?_, hnodup, hunique⟩
    (fun y hy => ?_) (fun y hy => ?_) (fun w y => ?_) fun y w hw => ?_
  · obtain ⟨p, hp, -⟩ := hdisj.mem_move (by simp) hold hfrom hto hne hw
    rw [(hco w).1, (hco w).2.1]
    exact h.lists.waiting p w hp
  · rw [(hco y).2.2.2, if_neg (by rintro rfl; exact hy hlive)]
    exact (h.idle y hy).1
  · subst hs'
    exact update_of_ne hy _ _
  · rw [(hco y).2.2.2]
    have hone := h.once w y
    subst hs' hnext
    by_cases hy : y = s.current
    · simp only [qemuCoQueueDoRestart, CoState.modify, if_pos hy, count_append]
      omega
    · simp only [qemuCoQueueDoRestart, CoState.modify, if_neg hy]
      exact hone
  · rw [(hco y).2.2.2] at hw
    by_cases hy : y = s.current
    · subst hy
      have hf : s'.fresh s.current = s.fresh s.current ++ next := by
        subst hs' hnext
        exact update_self _ _ _
      rw [if_pos rfl, mem_append] at hw
      rw [hf, mem_append]
      rcases hw with hw | hw
      · exact .inr ⟨hw, .inl⟩
      · exact .inl (.inr hw)
    · have hf : s'.fresh y = s.fresh y := by
        subst hs'
        exact update_of_ne hy _ _
      rw [if_neg hy] at hw
      rw [hf]
      exact .inr ⟨hw, id⟩

end Lists

/-! ## The rest of `coroutine_swap` -/

section SwapRest

variable {s : CoState} {rest : List ℕ} {f : SwapFrame} {frames : List SwapFrame}

/-- In user code or not, the coroutine whose wake-ups the current one runs has no fresh
ones. -/
theorem CoInv.fresh_eq_nil (h : CoInv s rest) (hf : f ∈ (s.co s.current).frames) :
    s.fresh f.target = [] := by
  by_contra hne
  rcases mem_cons.1 (h.running _ hne) with heq | hmem
  · exact h.other _ f hf heq
  · exact hne ((pairwise_cons.1 h.below).1 _ hmem f hf (h.top f hf) rfl)

theorem chainFrames_pop (hsr : s.current ∉ rest) (hf : (s.co s.current).frames = f :: frames) :
    chainFrames s.co (s.current :: rest) =
      f :: chainFrames (s.modify s.current fun co => { co with frames := frames }).co
        (s.current :: rest) := by
  have hrest : chainFrames (s.modify s.current fun co => { co with frames := frames }).co rest =
      chainFrames s.co rest := by
    refine chainFrames_congr fun x hx => ?_
    simp [show x ≠ s.current from fun heq => hsr (heq ▸ hx)]
  rw [chainFrames_cons, chainFrames_cons, hrest, hf]
  simp

/-- A call that has run all wake-ups of its target returns. -/
theorem CoInv.pop (h : CoInv s rest) (hf : (s.co s.current).frames = f :: frames)
    (hempty : (s.co f.target).wakeup = []) :
    CoInv (s.modify s.current fun co => { co with frames := frames }) rest := by
  obtain ⟨s', hs'⟩ : ∃ s' : CoState,
      s' = s.modify s.current fun co => { co with frames := frames } := ⟨_, rfl⟩
  have hco : ∀ y, (s'.co y).status = (s.co y).status ∧ (s'.co y).caller = (s.co y).caller ∧
      (s'.co y).wakeup = (s.co y).wakeup ∧ (y ≠ s.current → s'.co y = s.co y) := by
    intro y
    subst hs'
    by_cases hy : y = s.current
    · subst hy
      simp
    · simp [hy]
  have hself : (s'.co s.current).frames = frames := by simp [hs']
  have hsr : s.current ∉ rest := (nodup_cons.1 h.nodup).1
  have hframes : chainFrames s.co (s.current :: rest) =
      f :: chainFrames s'.co (s.current :: rest) := hs' ▸ chainFrames_pop hsr hf
  have hlist : ∀ p, s'.list p = s.list p
    | .queue q => by rw [hs']; rfl
    | .wakeup x => (hco x).2.2.1
  rw [← hs']
  refine h.of_sameChain ⟨by rw [hs']; rfl, fun x _ => ⟨(hco x).1, (hco x).2.1⟩, fun x => ?_,
    fun x hx => ?_, fun x hx => ?_, fun g _ => ⟨by rw [hs']; rfl, fun _ => (hco _).2.1⟩,
    fun x _ => by rw [hs']; rfl⟩
    (h.lists.sublist (fun p => by rw [hlist]) fun _ w _ => ⟨(hco w).1, (hco w).2.1⟩)
    (fun y hy => ?_) (by rw [hs']; exact h.poolNodup) (fun y hy => ?_) (fun w x => ?_)
    fun x w hw => ?_
  · by_cases hx : x = s.current
    · rw [hx, hself, hf]
      exact sublist_cons_self _ _
    · rw [(hco x).2.2.2 hx]
  · rw [(hco x).2.2.2 fun heq => hsr (heq ▸ hx)]
  · rw [(hco x).2.2.2 fun heq => hx (heq ▸ mem_cons_self)]
    exact .inl rfl
  · have hy' : y ∈ s.pool := by rwa [hs'] at hy
    rw [(hco y).2.2.2 fun heq => h.pool_notMem hy' (heq ▸ mem_cons_self)]
    exact h.pool y hy'
  · rw [(hco y).1] at hy
    rw [(hco y).2.1, (hco y).2.2.1]
    exact h.idle y hy
  · rw [(hco x).2.2.1, hs']
    exact h.once w x
  · rw [(hco x).2.2.1] at hw
    have hfresh : s'.fresh = s.fresh := by rw [hs']; rfl
    rw [hfresh]
    rcases h.kept x w hw with hfr | ⟨g, hg, hgr, hgx⟩
    · exact .inl hfr
    · rw [hframes] at hg
      rcases mem_cons.1 hg with rfl | hg
      · rw [← hgx, hempty] at hw
        exact absurd hw not_mem_nil
      · exact .inr ⟨g, hg, hgr, hgx⟩

end SwapRest

/-! ## Creating and deleting -/

section Replace

variable {s s' : CoState} {rest : List ℕ} {c : ℕ}

/-- The coroutine at an address off the chain, that waits on no list, can be replaced by a
blank one. -/
theorem CoInv.replace (h : CoInv s rest) (hc : c ∉ s.current :: rest) (hfree : ¬s.Listed c)
    (hempty : (s.co c).wakeup = []) (hother : ∀ y ≠ c, s'.co y = s.co y)
    (hblank : (s'.co c).wakeup = [] ∧ (s'.co c).caller = none ∧ (s'.co c).frames = [])
    (hcur : s'.current = s.current) (hqueue : s'.queue = s.queue) (hfresh : s'.fresh = s.fresh)
    (hmoved : s'.moved = s.moved) (hwoken : s'.woken = s.woken)
    (hdel : ∀ g ∈ chainFrames s.co (s.current :: rest), s'.deleted g.target = s.deleted g.target)
    (hgone : ∀ g ∈ chainFrames s.co (s.current :: rest), g.ret = some .terminate → g.target ≠ c)
    (hpool : ∀ y ∈ s'.pool, y ≠ c ∧ y ∈ s.pool ∨ y = c ∧ (s'.co c).status = .pooled)
    (hnodup : s'.pool.Nodup) : CoInv s' rest := by
  have hchain : ∀ x ∈ s.current :: rest, s'.co x = s.co x :=
    fun x hx => hother x fun heq => hc (heq ▸ hx)
  have hframes : chainFrames s'.co (s.current :: rest) = chainFrames s.co (s.current :: rest) :=
    chainFrames_congr fun x hx => by rw [hchain x hx]
  have hwk : ∀ x, (s'.co x).wakeup = (s.co x).wakeup := by
    intro x
    by_cases hx : x = c
    · rw [hx, hblank.1, hempty]
    · rw [hother x hx]
  have hlist : ∀ p, s'.list p = s.list p
    | .queue q => congrFun hqueue q
    | .wakeup x => hwk x
  refine h.of_sameChain ⟨hcur, fun x hx => by rw [hchain x hx]; exact ⟨rfl, rfl⟩, fun x => ?_,
    fun x hx => by rw [hchain x (mem_cons_of_mem _ hx)], fun x _ => ?_,
    fun g hg => ⟨hdel g hg, fun hret => by rw [hother _ (hgone g hg hret)]⟩,
    fun x _ => by rw [hfresh]⟩ (h.lists.sublist (fun p => by rw [hlist]) fun p w hw => ?_)
    (fun y hy => ?_) hnodup (fun y hy => ?_) (fun w x => ?_) fun x w hw => ?_
  · by_cases hx : x = c
    · rw [hx, hblank.2.2]
      exact nil_sublist _
    · rw [hother x hx]
  · by_cases hx : x = c
    · exact .inr (hx ▸ hblank.2.2)
    · exact .inl (by rw [hother x hx])
  · rw [hother w fun heq => hfree (listed_iff.2 ⟨p, heq ▸ hw⟩)]
    exact ⟨rfl, rfl⟩
  · rcases hpool y hy with ⟨hyc, hy⟩ | ⟨rfl, hst⟩
    · rw [hother y hyc]
      exact h.pool y hy
    · exact ⟨hst, hblank.2.2, hblank.2.1⟩
  · by_cases hyc : y = c
    · exact hyc ▸ ⟨hblank.1, hblank.2.1⟩
    · rw [hother y hyc] at hy ⊢
      exact h.idle y hy
  · rw [hmoved, hwoken, hwk]
    exact h.once w x
  · rw [hframes, hfresh]
    rw [hwk] at hw
    exact h.kept x w hw

/-- Deleting a coroutine that nobody refers to any more. -/
theorem CoInv.delete (h : CoInv s rest) (hempty : (s.co c).wakeup = [])
    (hcaller : (s.co c).caller ≠ none) (hnone : (s.co c).frames = []) (hc : c ∉ s.current :: rest)
    (huse : ∀ g ∈ chainFrames s.co (s.current :: rest), g.Restarting → g.target ≠ c) :
    CoInv (coroutineDelete c s) rest := by
  -- no call on the chain refers to it : those that go on by hypothesis, the others enter
  -- somebody on the chain
  have htarget : ∀ g ∈ chainFrames s.co (s.current :: rest), g.target ≠ c := by
    intro g hg
    by_cases hr : g.Restarting
    · exact huse g hg hr
    · rw [chainFrames_cons, mem_append] at hg
      rcases hg with hg | hg
      · exact absurd (h.top g hg) hr
      · exact fun heq => hc (heq ▸ h.chain.suspended g hg hr)
  have hfree : ¬s.Listed c := by
    rw [listed_iff]
    rintro ⟨p, hp⟩
    exact hcaller (h.lists.waiting p c hp).2
  have hcp : c ∉ s.pool := fun hm => hcaller (h.pool c hm).2.2
  have hdel : ∀ g ∈ chainFrames s.co (s.current :: rest),
      update s.deleted c (s.deleted c + 1) g.target = s.deleted g.target :=
    fun g hg => update_of_ne (htarget g hg) _ _
  unfold coroutineDelete
  dsimp only
  split
  · refine h.replace hc hfree hempty (fun y hy => ?_) ?_ rfl rfl rfl rfl rfl hdel
      (fun g hg _ => htarget g hg) (fun y hy => ?_) (nodup_cons.2 ⟨hcp, h.poolNodup⟩)
    · simp [hy]
    · simp [hempty, hnone]
    · rcases mem_cons.1 hy with rfl | hy
      · exact .inr ⟨rfl, by simp⟩
      · exact .inl ⟨fun heq => hcp (heq ▸ hy), hy⟩
  · refine h.replace hc hfree hempty (fun y hy => ?_) ?_ rfl rfl rfl rfl rfl hdel
      (fun g hg _ => htarget g hg) (fun y hy => .inl ⟨fun heq => hcp (heq ▸ hy), hy⟩) h.poolNodup
    · simp [hy]
    · simp

/-- A new coroutine is a blank one, at an address that was free or in the pool. -/
theorem CoInv.create (h : CoInv s rest) (hs : qemuCoroutineCreate c s = some s') :
    CoInv s' rest := by
  have hblank : ∀ pool : List ℕ, (s.co c).status ≠ .live → (s.co c).status ≠ .leader →
      pool.Sublist s.pool → c ∉ pool →
      CoInv { s with co := update s.co c ⟨.live, none, [], []⟩, pool := pool } rest := by
    intro pool hlive hleader hsub hcp
    obtain ⟨hempty, hcaller⟩ := h.idle c hlive
    refine h.replace (h.notMem hleader hcaller) (fun hl => ?_) hempty
      (fun y hy => update_of_ne hy _ _) (by simp) rfl rfl rfl rfl rfl (fun _ _ => rfl)
      (fun g hg hret heq => ?_) (fun y hy => .inl ⟨fun heq => hcp (heq ▸ hy), hsub.subset hy⟩)
      (h.poolNodup.sublist hsub)
    · obtain ⟨p, hp⟩ := listed_iff.1 hl
      exact hlive (h.lists.waiting p c hp).1
    · exact (h.gone g hg hret).1 (heq ▸ hcaller)
  unfold qemuCoroutineCreate at hs
  split at hs
  · rename_i co pool hpool
    obtain ⟨heq, hnew⟩ := ite_none_right_eq_some.1 hs
    subst heq
    cases hnew
    obtain ⟨h1, h2, h3⟩ := h.pool c (by simp [hpool])
    have hnd := h.poolNodup
    rw [hpool] at hnd
    have := hblank pool (by simp [h1]) (by simp [h1]) (by simp [hpool]) (nodup_cons.1 hnd).1
    simpa [h2, h3] using this
  · rename_i hpool
    obtain ⟨ha, hs⟩ := ite_none_right_eq_some.1 hs
    cases hs
    exact hblank s.pool (by simp [ha]) (by simp [ha]) (Sublist.refl _) (by simp [hpool])

end Replace

end QemuArm
