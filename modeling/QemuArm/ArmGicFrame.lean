import QemuArm.ArmGic

/-!
# What an operation of the interrupt controller leaves alone

`gic_update` only writes the outputs (`gicUpdate_frame`). No operation changes the
configuration (`GicFrame`), and only four change what is pending of the SGIs, or the sources
that `sgi_pending` keeps for them (`SgiQuiet`) : writes to `GICD_SGIR`, `GICD_CPENDSGIRn`
and `GICD_SPENDSGIRn`, and an acknowledge.
-/

namespace QemuArm

open BitVec Option

/-! ## The update -/

/-- The distributor and the interface of the CPU are on. -/
def GICState.live (s : GICState) (c : ℕ) : Bool := s.enabled && s.cpuEnabled c

open GICState

@[simp] theorem gicBest_setOutput (s : GICState) (c p : ℕ) (l : Bool) (cpu : ℕ) :
    ∀ n, gicBest (s.setOutput c p l) cpu n = gicBest s cpu n
  | 0 => rfl
  | n + 1 => by
    rw [gicBest, gicBest_setOutput s c p l cpu n]
    rfl

/-- What the body of the loop stores for a CPU. -/
def gicOutput (s : GICState) (c : ℕ) : ℕ × Bool :=
  if s.live c then
    if (gicBest s c s.numIrq).1 < s.priorityMask c then
      ((gicBest s c s.numIrq).2, decide ((gicBest s c s.numIrq).1 < s.runningPriority c))
    else (1023, false)
  else (1023, false)

theorem gicUpdateLoop_succ (n cpu : ℕ) (s : GICState) :
    gicUpdateLoop (n + 1) cpu s =
      if s.live cpu then
        gicUpdateLoop n (cpu + 1) (s.setOutput cpu (gicOutput s cpu).1 (gicOutput s cpu).2)
      else s.setOutput cpu 1023 false := by
  rw [gicUpdateLoop]
  by_cases h : s.live cpu
  · have h' := h
    rw [live, Bool.and_eq_true] at h'
    rw [if_neg (by simp [h'.1, h'.2]), gicOutput, if_pos h]
    dsimp only
    split <;> rfl
  · rw [if_neg h]
    rw [live] at h
    revert h
    cases s.enabled <;> cases s.cpuEnabled cpu <;> simp

/-- Only the outputs change. -/
theorem gicUpdateLoop_frame : ∀ n cpu s, ∃ pending lines,
    gicUpdateLoop n cpu s = { s with currentPending := pending, parentIrq := lines }
  | 0, _, s => ⟨s.currentPending, s.parentIrq, rfl⟩
  | n + 1, cpu, s => by
    rw [gicUpdateLoop_succ]
    split
    · obtain ⟨pending, lines, h⟩ := gicUpdateLoop_frame n (cpu + 1)
        (s.setOutput cpu (gicOutput s cpu).1 (gicOutput s cpu).2)
      exact ⟨pending, lines, h⟩
    · exact ⟨_, _, rfl⟩

theorem gicUpdate_frame (s : GICState) : ∃ pending lines,
    gicUpdate s = { s with currentPending := pending, parentIrq := lines } :=
  gicUpdateLoop_frame _ _ s

/-! ## Frames -/

/-- What no operation changes. -/
structure GicFrame (s s' : GICState) : Prop where
  numCpu : s'.numCpu = s.numCpu
  numIrq : s'.numIrq = s.numIrq
  revision : s'.revision = s.revision
  mask : (∀ c, s.priorityMask c ≤ 0xff) → ∀ c, s'.priorityMask c ≤ 0xff
  level : ∀ n < GIC_NR_SGIS, (s'.irqState n).level = (s.irqState n).level

/-- Nor does it touch the SGIs. -/
structure SgiQuiet (s s' : GICState) : Prop extends GicFrame s s' where
  pending : ∀ n < GIC_NR_SGIS, (s'.irqState n).pending = (s.irqState n).pending
  sgi : s'.sgiPending = s.sgiPending
  current : s'.currentPending = s.currentPending

open SgiQuiet

/-- No line raises an SGI. -/
def SgiLow (s : GICState) : Prop := ∀ n < GIC_NR_SGIS, (s.irqState n).level = 0

variable {irq : ℕ} {value : BitVec 8}

section Frames

variable {s s' s'' : GICState}

theorem GicFrame.trans (h : GicFrame s s') (h' : GicFrame s' s'') : GicFrame s s'' :=
  ⟨h'.numCpu.trans h.numCpu, h'.numIrq.trans h.numIrq, h'.revision.trans h.revision,
    fun hm => h'.mask (h.mask hm), fun n hn => (h'.level n hn).trans (h.level n hn)⟩

theorem GicFrame.low (h : GicFrame s s') (hlow : SgiLow s) : SgiLow s' :=
  fun n hn => (h.level n hn).trans (hlow n hn)

theorem gicFrame_update (s : GICState) : GicFrame s (gicUpdate s) := by
  obtain ⟨pending, lines, hframe⟩ := gicUpdate_frame s
  rw [hframe]
  exact ⟨rfl, rfl, rfl, id, fun _ _ => rfl⟩

namespace SgiQuiet

theorem refl (s : GICState) : SgiQuiet s s :=
  ⟨⟨rfl, rfl, rfl, id, fun _ _ => rfl⟩, fun _ _ => rfl, rfl, rfl⟩

theorem trans (h : SgiQuiet s s') (h' : SgiQuiet s' s'') : SgiQuiet s s'' :=
  ⟨h.toGicFrame.trans h'.toGicFrame, fun n hn => (h'.pending n hn).trans (h.pending n hn),
    h'.sgi.trans h.sgi, h'.current.trans h.current⟩

/-- An interrupt that is no SGI may change, and an SGI outside of these two masks. -/
theorem setIrqState {f}
    (hf : irq < GIC_NR_SGIS → (f (s.irqState irq)).pending = (s.irqState irq).pending ∧
      (f (s.irqState irq)).level = (s.irqState irq).level) : SgiQuiet s (s.setIrqState irq f) := by
  refine ⟨⟨rfl, rfl, rfl, id, fun n hn => ?_⟩, fun n hn => ?_, rfl, rfl⟩ <;>
    by_cases h : n = irq
  · subst h
    simpa using (hf hn).2
  · simp [h]
  · subst h
    simpa using (hf hn).1
  · simp [h]

theorem setIrqState_ge (h : GIC_NR_SGIS ≤ irq) (f : GicIrqState → GicIrqState) :
    SgiQuiet s (s.setIrqState irq f) := setIrqState fun hlt => absurd hlt (Nat.not_lt.mpr h)

theorem foldl {α : Type} {f} :
    ∀ (as : List α) {s' : GICState}, (∀ s', SgiQuiet s s' → ∀ a, SgiQuiet s' (f s' a)) →
      SgiQuiet s s' → SgiQuiet s (as.foldl f s')
  | [], _, _, h => h
  | a :: as, s', hf, h => foldl as hf (h.trans (hf s' h a))

theorem forBits {n f} (hf : value ≠ 0 → ∀ s', SgiQuiet s s' → ∀ i, SgiQuiet s' (f s' i)) :
    SgiQuiet s (forBits n value f s) := by
  refine foldl _ (fun s' h i => iteInduction (fun hbit => hf ?_ s' h i) fun _ => refl s') (refl s)
  rintro rfl
  simp at hbit

end SgiQuiet

end Frames

/-! ## Operations -/

variable {cpu offset : ℕ} {out : GicOutcome}

section Operations

variable {s : GICState}

theorem enableIrq_quiet (hlow : SgiLow s) (i : ℕ) : SgiQuiet s (enableIrq cpu irq s i) := by
  have henable : ∀ cm, SgiQuiet s (s.setEnabled (irq + i) cm) :=
    fun cm => setIrqState fun _ => ⟨rfl, rfl⟩
  refine iteInduction (fun hraised => ?_) fun _ => henable _
  refine (henable _).trans (setIrqState_ge (Nat.not_lt.mp fun hlt => ?_) _)
  simp [testLevel, (henable _).toGicFrame.low hlow _ hlt] at hraised

theorem disableIrq_quiet (cpu irq i : ℕ) : SgiQuiet s (disableIrq cpu irq s i) := by
  rw [disableIrq]
  exact setIrqState fun _ => ⟨rfl, rfl⟩

theorem configureIrq_quiet (irq : ℕ) (value : BitVec 8) (i : ℕ) :
    SgiQuiet s (configureIrq irq value s i) := by
  rw [configureIrq]
  exact (setIrqState fun _ => ⟨rfl, rfl⟩).trans (setIrqState fun _ => ⟨rfl, rfl⟩)

/-- What a byte written to the distributor does. -/
inductive DistEffect (s : GICState) (cpu offset : ℕ) (value : BitVec 8) : GicOutcome → Prop
  | stay : offset < 0xf10 ∨ 0xf30 ≤ offset → DistEffect s cpu offset value (.stay s)
  | quiet {u : GICState} : offset < 0xf10 → SgiQuiet s u →
      DistEffect s cpu offset value (.update u)
  | clear {n : ℕ} : n < GIC_NR_SGIS → offset = 0xf10 + n →
      DistEffect s cpu offset value (.update (clearSgi s cpu n value))
  | raise {n : ℕ} : n < GIC_NR_SGIS → offset = 0xf20 + n →
      DistEffect s cpu offset value (.update (raiseSgi s cpu n value))

/-- A register that is indexed by an interrupt. -/
theorem DistEffect.checked {u} (hoff : offset < 0xf10) (hu : SgiQuiet s u) :
    DistEffect s cpu offset value (if s.numIrq ≤ irq then .stay s else .update u) := by
  split
  · exact stay (.inl hoff)
  · exact quiet hoff hu

/-- A register that ignores what is written for the SGIs. -/
theorem forBits_quiet {f} (hf : GIC_NR_SGIS ≤ irq → ∀ s i, SgiQuiet s (f s i)) :
    SgiQuiet s (forBits 8 (if irq < GIC_NR_SGIS then 0 else value) f s) := by
  refine SgiQuiet.forBits fun hvalue s' _ i => hf (Nat.not_lt.mp fun hlt => ?_) s' i
  simp [hlt] at hvalue

theorem gicDistWriteb_effect (hrev : s.legacy = false) (hlow : SgiLow s) (cpu offset : ℕ)
    (value : BitVec 8) : DistEffect s cpu offset value (gicDistWriteb s cpu offset value) := by
  have hge : ∀ {irq : ℕ} (i : ℕ), GIC_NR_SGIS ≤ irq → GIC_NR_SGIS ≤ irq + i :=
    fun i h => Nat.le_add_right_of_le h
  rw [gicDistWriteb]
  refine iteInduction (fun h => ?_) fun h => ?_
  · split
    · exact .quiet (by omega) ⟨⟨rfl, rfl, rfl, id, fun _ _ => rfl⟩, fun _ _ => rfl, rfl, rfl⟩
    · split
      · exact .quiet (by omega) (.refl s)
      · exact .stay (by omega)
  refine iteInduction (fun h => ?_) fun h => ?_
  · exact .checked (by omega)
      (SgiQuiet.forBits fun _ s' h i => enableIrq_quiet (h.toGicFrame.low hlow) i)
  refine iteInduction (fun h => ?_) fun h => ?_
  · exact .checked (by omega) (SgiQuiet.forBits fun _ s' _ i => disableIrq_quiet _ _ i)
  refine iteInduction (fun h => ?_) fun h => ?_
  · exact .checked (by omega) (forBits_quiet fun h s' i => setIrqState_ge (hge i h) _)
  refine iteInduction (fun h => ?_) fun h => ?_
  · exact .checked (by omega) (forBits_quiet fun h s' i => setIrqState_ge (hge i h) _)
  refine iteInduction (fun h => ?_) fun h => ?_
  · exact .stay (by omega)
  refine iteInduction (fun h => ?_) fun h => ?_
  · refine .checked (by omega) (iteInduction (fun _ => ?_) fun _ => ?_) <;>
      exact ⟨⟨rfl, rfl, rfl, id, fun _ _ => rfl⟩, fun _ _ => rfl, rfl, rfl⟩
  refine iteInduction (fun h => ?_) fun h => ?_
  · split
    · exact .checked (by omega) ⟨⟨rfl, rfl, rfl, id, fun _ _ => rfl⟩, fun _ _ => rfl, rfl, rfl⟩
    · exact .quiet (by omega) (.refl s)
  refine iteInduction (fun h => ?_) fun h => ?_
  · exact .checked (by omega) (foldl _ (fun s' _ i => configureIrq_quiet _ _ i) (.refl s))
  refine iteInduction (fun h => ?_) fun h => ?_
  · exact .stay (by omega)
  rw [hrev]
  refine iteInduction (fun h => ?_) fun h => ?_
  · exact .clear (by rw [GIC_NR_SGIS]; omega) (by omega)
  refine iteInduction (fun h => ?_) fun h => ?_
  · exact .raise (by rw [GIC_NR_SGIS]; omega) (by omega)
  · exact .stay (by omega)

theorem gicSetIrq_quiet {line level} (h : gicSetIrq s line level = some out) :
    out = .stay s ∨ ∃ u, out = .update u ∧ SgiQuiet s u := by
  rw [gicSetIrq] at h
  obtain ⟨⟨irq, cm, target⟩, hline⟩ : ∃ l, l = gicLine s line := ⟨_, rfl⟩
  rw [← hline] at h
  dsimp only at h
  by_cases hsgi : irq < GIC_NR_SGIS
  · simp [hsgi] at h
  have hge : GIC_NR_SGIS ≤ irq := Nat.not_lt.mp hsgi
  rw [if_neg hsgi] at h
  have hset : ∀ b : Prop, ∀ [Decidable b], SgiQuiet s
      (if b then (s.setLevel irq cm).setPending irq target else s.setLevel irq cm) := by
    intro b _
    exact iteInduction
      (fun _ => (setIrqState_ge hge _).trans (setIrqState_ge hge _))
      fun _ => setIrqState_ge hge _
  split at h
  · exact .inl (some.inj h).symm
  · right
    split at h <;> refine ⟨_, (some.inj h).symm, iteInduction (fun _ => hset _) fun _ => ?_⟩
    · exact setIrqState_ge hge _
    · exact setIrqState_ge hge _

theorem gicSetRunningIrq_quiet (cpu irq : ℕ) :
    ∃ u, gicSetRunningIrq s cpu irq = .update u ∧ SgiQuiet s u ∧ u.live = s.live :=
  ⟨_, rfl, ⟨⟨rfl, rfl, rfl, id, fun _ _ => rfl⟩, fun _ _ => rfl, rfl, rfl⟩, rfl⟩

theorem setLastActive_quiet (irq cpu v : ℕ) : SgiQuiet s (s.setLastActive irq cpu v) :=
  ⟨⟨rfl, rfl, rfl, id, fun _ _ => rfl⟩, fun _ _ => rfl, rfl, rfl⟩

theorem completeLoop_quiet : ∀ (fuel tmp : ℕ) {s s' : GICState},
    completeLoop cpu irq fuel tmp s = some s' → SgiQuiet s s'
  | 0, _, _, _, h => by simp [completeLoop] at h
  | fuel + 1, tmp, s, s', h => by
    rw [completeLoop] at h
    split at h
    · rw [← some.inj h]
      exact .refl s
    · split at h
      · rw [← some.inj h]
        exact setLastActive_quiet _ _ _
      · exact completeLoop_quiet fuel _ h

theorem gicCompleteIrq_quiet (hrev : s.legacy = false) (h : gicCompleteIrq s cpu irq = some out) :
    ∃ u, SgiQuiet s u ∧ (out = .stay u ∨ out = .update u) := by
  have hupdate : stillRaised s cpu irq = false := by simp [stillRaised, hrev]
  rw [gicCompleteIrq] at h
  split at h
  · exact ⟨s, .refl s, .inl (some.inj h).symm⟩
  split at h
  · exact ⟨s, .refl s, .inl (some.inj h).symm⟩
  simp only [hupdate, Bool.false_eq_true, if_false] at h
  split at h
  · obtain ⟨s', hs', hout⟩ := map_eq_some_iff.mp h
    exact ⟨s', completeLoop_quiet _ _ hs', .inl hout.symm⟩
  · obtain ⟨u, hu, hquiet, -⟩ := gicSetRunningIrq_quiet (s := s) cpu
      (s.lastActive (s.runningIrq cpu) cpu)
    exact ⟨u, hquiet, .inr ((some.inj h).symm.trans hu)⟩

/-- What reading `GICC_IAR` does. -/
inductive AckEffect (s : GICState) (cpu : ℕ) : ℕ → GicOutcome → Prop
  | stay : AckEffect s cpu 1023 (.stay s)
  | quiet {u : GICState} : GIC_NR_SGIS ≤ s.currentPending cpu → SgiQuiet s u →
      AckEffect s cpu (s.currentPending cpu) (.update u)
  | sgi {n v : ℕ} {t u : GICState} : n = s.currentPending cpu → n < GIC_NR_SGIS →
      s.getPriority n cpu < s.runningPriority cpu →
      gicAcknowledgeSgi (s.setLastActive n cpu (s.runningIrq cpu)) n cpu = some (v, t) →
      SgiQuiet t u → u.live = t.live → AckEffect s cpu v (.update u)

theorem gicAcknowledgeIrq_effect (hrev : s.legacy = false) {v}
    (h : gicAcknowledgeIrq s cpu = some (v, out)) : AckEffect s cpu v out := by
  rw [gicAcknowledgeIrq] at h
  dsimp only at h
  split at h
  · cases h
    exact .stay
  have hlegacy : (s.setLastActive (s.currentPending cpu) cpu (s.runningIrq cpu)).legacy = false :=
    hrev
  rw [hlegacy] at h
  by_cases hsgi : s.currentPending cpu < GIC_NR_SGIS
  · rw [if_neg (by simp [hsgi])] at h
    obtain ⟨⟨v', t⟩, hack, hr⟩ := map_eq_some_iff.mp h
    cases hr
    obtain ⟨u, hu, hset, hlive⟩ := gicSetRunningIrq_quiet (s := t) cpu (s.currentPending cpu)
    rw [hu]
    exact .sgi rfl hsgi (by omega) hack hset hlive
  · have hge := Nat.not_lt.mp hsgi
    rw [if_pos (by simp [hsgi])] at h
    cases h
    obtain ⟨u, hu, hset, -⟩ := gicSetRunningIrq_quiet cpu (s.currentPending cpu)
    rw [hu]
    exact .quiet hge (((setLastActive_quiet _ _ _).trans (setIrqState_ge hge _)).trans hset)

end Operations

/-! ## Masks -/

theorem cpuBit_getLsbD (c t : ℕ) : (cpuBit c).getLsbD t = (decide (c < 8) && decide (c = t)) :=
  getLsbD_twoPow c t

theorem cpuBit_getLsbD_of_lt (hcpu : cpu < GIC_NCPU) (c : ℕ) :
    (cpuBit cpu).getLsbD c = decide (c = cpu) := by
  rw [GIC_NCPU] at hcpu
  rw [cpuBit_getLsbD, decide_eq_true hcpu]
  exact decide_eq_decide.mpr eq_comm

theorem andNot_getLsbD (x y : BitVec 8) (t : ℕ) :
    (x &&& ~~~y).getLsbD t = (x.getLsbD t && !y.getLsbD t) := by
  by_cases ht : t < 8
  · rw [getLsbD_and, getLsbD_not, decide_eq_true ht, Bool.true_and]
  · rw [getLsbD_of_ge _ t (Nat.not_lt.mp ht), getLsbD_of_ge x t (Nat.not_lt.mp ht), Bool.false_and]

theorem and_cpuBit_ne_zero {x c} : x &&& cpuBit c ≠ 0 ↔ x.getLsbD c := by
  rw [cpuBit, and_twoPow]
  constructor
  · intro h
    by_contra hbit
    exact h (if_neg hbit)
  · intro hbit h0
    have hc : c < 8 := by
      by_contra hc
      rw [getLsbD_of_ge x c (Nat.not_lt.mp hc)] at hbit
      exact absurd hbit (by decide)
    rw [if_pos hbit] at h0
    have hself := cpuBit_getLsbD c c
    rw [cpuBit, h0] at hself
    simp [hc] at hself

theorem ctz32_lt {mask : BitVec 8} (h : ctz32 mask.toNat < GIC_NCPU) :
    mask.getLsbD (ctz32 mask.toNat) ∧ ∀ t < ctz32 mask.toNat, mask.getLsbD t = false := by
  rw [ctz32] at h ⊢
  cases hfind : (List.range 32).find? mask.toNat.testBit with
  | none =>
    rw [hfind] at h
    exact absurd h (by decide)
  | some t =>
    obtain ⟨hbit, _, hlow⟩ := List.find?_range_eq_some.mp hfind
    exact ⟨hbit, fun j hj => by simpa [testBit_toNat] using hlow j hj⟩

theorem ctz32_not_lt {mask : BitVec 8} (h : ¬ctz32 mask.toNat < GIC_NCPU) : mask = 0 := by
  refine eq_of_getLsbD_eq fun t ht => ?_
  by_contra hne
  have hbit : mask.getLsbD t = true := by simpa using hne
  rw [ctz32] at h
  cases hfind : (List.range 32).find? mask.toNat.testBit with
  | none =>
    have := List.find?_range_eq_none.mp hfind t (by omega)
    rw [testBit_toNat, hbit] at this
    exact absurd this (by decide)
  | some i =>
    obtain ⟨hi, _, hlow⟩ := List.find?_range_eq_some.mp hfind
    rw [testBit_toNat] at hi
    rw [hfind] at h
    rw [getLsbD_of_ge mask i (Nat.not_lt.mp h)] at hi
    exact absurd hi (by decide)

/-- The sources after the CPU has sent the SGI to all of the mask. -/
def sentTo (sgi : ℕ → ℕ → BitVec 8) (irq : ℕ) (mask : BitVec 8) (cpu : ℕ) : ℕ → ℕ → BitVec 8 :=
  fun n t => if n = irq ∧ mask.getLsbD t then sgi n t ||| cpuBit cpu else sgi n t

theorem sentTo_zero (sgi : ℕ → ℕ → BitVec 8) : sentTo sgi irq 0 cpu = sgi := by
  funext n t
  rw [sentTo, if_neg (by simp)]

theorem sgiLoop_eq : ∀ (n : ℕ) (mask : BitVec 8) (s : GICState),
    (∀ t < GIC_NCPU - n, mask.getLsbD t = false) →
    sgiLoop cpu irq n mask s = { s with sgiPending := sentTo s.sgiPending irq mask cpu }
  | 0, mask, s, hlow => by
    have hmask : mask = 0 := eq_of_getLsbD_eq fun t ht => by
      simpa using hlow t ht
    rw [sgiLoop, hmask, sentTo_zero]
  | n + 1, mask, s, hlow => by
    rw [sgiLoop]
    by_cases h : ctz32 mask.toNat < GIC_NCPU
    · obtain ⟨hbit, hfirst⟩ := ctz32_lt h
      generalize ctz32 mask.toNat = target at h hbit hfirst
      have hge : GIC_NCPU - (n + 1) ≤ target := by
        by_contra hlt
        rw [hlow target (by omega)] at hbit
        exact absurd hbit (by decide)
      have hclear : ∀ t, (mask &&& ~~~cpuBit target).getLsbD t =
          (mask.getLsbD t && !decide (t = target)) := by
        intro t
        rw [andNot_getLsbD, cpuBit_getLsbD_of_lt h]
      rw [if_pos h, sgiLoop_eq n]
      · -- the bit of this round, and those of the rest
        rw [setSgiPending]
        congr 1
        funext i t
        simp only [sentTo, hclear, update2]
        by_cases hi : i = irq
        · subst hi
          by_cases ht : t = target
          · subst ht
            simp [hbit]
          · simp [ht]
        · simp [hi]
      · intro t ht
        rw [hclear]
        rcases lt_or_ge t target with hlt | hle
        · rw [hfirst t hlt, Bool.false_and]
        · have : t = target := by omega
          simp [this]
    · rw [if_neg h, ctz32_not_lt h, sentTo_zero]

/-! ## Every operation -/

/-- The state before the last update. -/
def GicOutcome.before : GicOutcome → GICState
  | update u => u
  | stay s => s

section Wf

variable {s s' : GICState} {cfg : GicConfig}

/-- The device has its configuration, and no SGI has a line. -/
structure GicWf (cfg : GicConfig) (s : GICState) : Prop where
  numCpu : s.numCpu = cfg.numCpu
  numIrq : s.numIrq = cfg.numIrq
  revision : s.revision = cfg.revision
  mask : ∀ c, s.priorityMask c ≤ 0xff
  low : SgiLow s

theorem GicWf.legacy (h : GicWf cfg s) : s.legacy = false := by
  rw [GICState.legacy, h.revision]
  rcases cfg.revision_mem with hr | hr <;> rw [hr] <;> rfl

theorem GicFrame.wf (h : GicFrame s s') (hwf : GicWf cfg s) : GicWf cfg s' :=
  ⟨h.numCpu.trans hwf.numCpu, h.numIrq.trans hwf.numIrq, h.revision.trans hwf.revision,
    h.mask hwf.mask, h.low hwf.low⟩

theorem gicWf_reset (cfg : GicConfig) : GicWf cfg (armGicCommonReset cfg) := by
  refine ⟨rfl, rfl, rfl, fun c => Nat.zero_le _, fun n hn => ?_⟩
  rw [GIC_NR_SGIS] at hn
  simp [armGicCommonReset, hn]

theorem GicFrame.setIrqState {f} (hf : (f (s.irqState irq)).level = (s.irqState irq).level) :
    GicFrame s (s.setIrqState irq f) := by
  refine ⟨rfl, rfl, rfl, id, fun n _ => ?_⟩
  by_cases h : n = irq
  · subst h
    simpa using hf
  · simp [h]

theorem GicFrame.setSgiPending (irq cpu : ℕ) (v : BitVec 8) :
    GicFrame s (s.setSgiPending irq cpu v) := ⟨rfl, rfl, rfl, id, fun _ _ => rfl⟩

theorem GicOutcome.frame_state (h : GicFrame s out.before) : GicFrame s out.state := by
  cases out with
  | update u => exact GicFrame.trans h (gicFrame_update u)
  | stay s' => exact h

theorem gicDistWriteb_frame (hwf : GicWf cfg s) (cpu offset : ℕ) (value : BitVec 8) :
    GicFrame s (gicDistWriteb s cpu offset value).before := by
  have heffect := gicDistWriteb_effect hwf.legacy hwf.low cpu offset value
  generalize gicDistWriteb s cpu offset value = out at heffect ⊢
  cases heffect with
  | stay => exact (refl s).toGicFrame
  | quiet _ hquiet => exact hquiet.toGicFrame
  | clear =>
    exact iteInduction (fun _ => (GicFrame.setSgiPending _ _ _).trans (.setIrqState rfl))
      fun _ => .setSgiPending _ _ _
  | raise => exact (GicFrame.setIrqState rfl).trans (.setSgiPending _ _ _)

theorem gicDistWritew_frame (hwf : GicWf cfg s) (cpu offset : ℕ) (value : BitVec 16) :
    GicFrame s (gicDistWritew s cpu offset value).before := by
  have hfirst := GicOutcome.frame_state (gicDistWriteb_frame hwf cpu offset (value.setWidth 8))
  exact hfirst.trans (gicDistWriteb_frame (hfirst.wf hwf) cpu (offset + 1) _)

theorem gicDistWritel_frame (hwf : GicWf cfg s) {value}
    (h : gicDistWritel s cpu offset value = some out) : GicFrame s out.before := by
  rw [gicDistWritel] at h
  split at h
  · rw [gicWriteSgir] at h
    split at h
    · exact absurd h (by simp)
    · rw [← some.inj h, sgiLoop_eq _ _ _ (by simp)]
      have hset : GicFrame s (s.setPending (value &&& 0x3ff).toNat (sgiMask cpu value)) :=
        .setIrqState rfl
      exact ⟨hset.numCpu, hset.numIrq, hset.revision, hset.mask, hset.level⟩
  · rw [← some.inj h]
    have hfirst := GicOutcome.frame_state (gicDistWritew_frame hwf cpu offset (value.setWidth 16))
    exact hfirst.trans (gicDistWritew_frame (hfirst.wf hwf) cpu (offset + 2) _)

theorem gicAcknowledgeSgi_frame {v t}
    (h : gicAcknowledgeSgi s irq cpu = some (v, t)) : GicFrame s t := by
  rw [gicAcknowledgeSgi] at h
  split at h
  · exact absurd h (by simp)
  · cases h
    exact iteInduction (fun _ => (GicFrame.setSgiPending _ _ _).trans (.setIrqState rfl))
      fun _ => .setSgiPending _ _ _

theorem gicAcknowledgeIrq_frame (hwf : GicWf cfg s) {v}
    (h : gicAcknowledgeIrq s cpu = some (v, out)) : GicFrame s out.before := by
  cases gicAcknowledgeIrq_effect hwf.legacy h with
  | stay => exact (refl s).toGicFrame
  | quiet _ hquiet => exact hquiet.toGicFrame
  | sgi _ _ _ hack hquiet _ =>
    exact ((setLastActive_quiet _ _ _).toGicFrame.trans (gicAcknowledgeSgi_frame hack)).trans
      hquiet.toGicFrame

/-- A read of a CPU interface, but for `GICC_IAR`, changes nothing. -/
theorem gicCpuRead_cases {v} (h : gicCpuRead s cpu offset = some (v, out)) :
    offset ≠ 0x0c ∧ out = .stay s ∨ offset = 0x0c ∧ gicAcknowledgeIrq s cpu = some (v, out) := by
  by_cases hoff : offset = 0x0c
  · subst hoff
    exact .inr ⟨rfl, h⟩
  refine .inl ⟨hoff, ?_⟩
  rw [gicCpuRead.eq_def] at h
  split at h
  case h_4 => exact absurd rfl hoff
  case h_8 =>
    split at h <;> exact (Prod.mk.inj (some.inj h)).2.symm
  all_goals exact (Prod.mk.inj (some.inj h)).2.symm

theorem gicCpuWrite_quiet (hrev : s.legacy = false) {value}
    (h : gicCpuWrite s cpu offset value = some out) :
    ∃ u, SgiQuiet s u ∧ (out = .stay u ∨ out = .update u) := by
  rw [gicCpuWrite.eq_def] at h
  split at h
  · refine ⟨_, ?_, .inr (some.inj h).symm⟩
    exact ⟨⟨rfl, rfl, rfl, id, fun _ _ => rfl⟩, fun _ _ => rfl, rfl, rfl⟩
  · refine ⟨_, ?_, .inr (some.inj h).symm⟩
    refine ⟨⟨rfl, rfl, rfl, fun hm c => ?_, fun _ _ => rfl⟩, fun _ _ => rfl, rfl, rfl⟩
    by_cases hc : c = cpu
    · subst hc
      have hand : value.toNat &&& 0xff ≤ 0xff := Nat.and_le_right
      simpa using hand
    · simpa [hc] using hm c
  · refine ⟨_, ?_, .inr (some.inj h).symm⟩
    exact ⟨⟨rfl, rfl, rfl, id, fun _ _ => rfl⟩, fun _ _ => rfl, rfl, rfl⟩
  · exact gicCompleteIrq_quiet hrev h
  · refine ⟨_, iteInduction (fun _ => ?_) (fun _ => .refl s), .inr (some.inj h).symm⟩
    exact ⟨⟨rfl, rfl, rfl, id, fun _ _ => rfl⟩, fun _ _ => rfl, rfl, rfl⟩
  · split at h
    · exact ⟨s, .refl s, .inr (some.inj h).symm⟩
    · exact ⟨s, .refl s, .inl (some.inj h).symm⟩

/-- No operation changes the configuration. -/
theorem GicOp.run_frame (hwf : GicWf cfg s) {op : GicOp} {v : ℕ} (h : op.run s = some (v, out)) :
    GicFrame s out.before := by
  have hquiet : ∀ {out : GicOutcome}, (∃ u, SgiQuiet s u ∧ (out = .stay u ∨ out = .update u)) →
      GicFrame s out.before := by
    rintro _ ⟨u, hu, rfl | rfl⟩ <;> exact hu.toGicFrame
  have hsame : GicFrame s s := (refl s).toGicFrame
  have hread : ∀ {n : ℕ}, some (n, GicOutcome.stay s) = some (v, out) → GicFrame s out.before := by
    intro n hr
    rw [← (Prod.mk.inj (some.inj hr)).2]
    exact hsame
  have hmap : ∀ {o : Option GicOutcome}, o.map (0, ·) = some (v, out) → o = some out := by
    intro o ho
    obtain ⟨out', ho', hr⟩ := map_eq_some_iff.mp ho
    rw [ho', (Prod.mk.inj hr).2]
  cases op with
  | setIrq line level =>
    rcases gicSetIrq_quiet (hmap h) with hstay | ⟨u, hu, hq⟩
    · exact hquiet ⟨s, .refl s, .inl hstay⟩
    · exact hquiet ⟨u, hq, .inr hu⟩
  | distReadb cpu offset | distReadw cpu offset | distReadl cpu offset => exact hread h
  | distWriteb cpu offset value =>
    rw [← (Prod.mk.inj (some.inj h)).2]
    exact gicDistWriteb_frame hwf cpu offset value
  | distWritew cpu offset value =>
    rw [← (Prod.mk.inj (some.inj h)).2]
    exact gicDistWritew_frame hwf cpu offset value
  | distWritel cpu offset value => exact gicDistWritel_frame hwf (hmap h)
  | cpuRead cpu offset =>
    rcases gicCpuRead_cases h with ⟨_, rfl⟩ | ⟨_, hack⟩
    · exact hsame
    · exact gicAcknowledgeIrq_frame hwf hack
  | cpuWrite cpu offset value => exact hquiet (gicCpuWrite_quiet hwf.legacy (hmap h))

end Wf

end QemuArm
