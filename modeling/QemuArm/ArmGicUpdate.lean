import QemuArm.ArmGicFrame

/-!
# What the interrupt controller signals

`gic_update` recomputes the output line and `current_pending` of one CPU after the other.
`OutputExact s c` says what the outputs of CPU `c` should be in the state `s`.
`gicUpdate_outputs_iff` : they are that for every CPU exactly when a CPU behind an interface that
is off still stores what its pending interrupts ask for, and on every other CPU each pending
interrupt that does not target it is beaten by another one (`UpdateExact`). The two ways to fail are
the `return` in the loop, at the first interface that is off, and the missing look at `irq_target`
for a raised line.
-/

namespace QemuArm

/-! ## What the outputs should be -/

/-- The interrupt is enabled and pending for the CPU, and targets it if it is shared. -/
@[mk_iff] structure PendingFor (s : GICState) (c irq : ℕ) : Prop where
  enabled : s.testEnabled irq (cpuBit c)
  pending : gicTestPending s irq (cpuBit c)
  target : GIC_INTERNAL ≤ irq → (s.irqTarget irq).getLsbD c

/-- The interrupt can be signalled to the CPU, but for the running priority. -/
@[mk_iff] structure Signals (s : GICState) (c irq : ℕ) : Prop where
  on : s.enabled ∧ s.cpuEnabled c
  lt : irq < s.numIrq
  pending : PendingFor s c irq
  masked : s.getPriority irq c < s.priorityMask c

instance (s : GICState) (c irq : ℕ) : Decidable (PendingFor s c irq) :=
  decidable_of_iff _ (pendingFor_iff s c irq).symm

instance (s : GICState) (c irq : ℕ) : Decidable (Signals s c irq) :=
  decidable_of_iff _ (signals_iff s c irq).symm

/-- In the state `s`, `current_pending` of the CPU should be `p` and its line `l`. -/
structure OutputIs (s : GICState) (c p : ℕ) (l : Bool) : Prop where
  /-- the line is high when some interrupt preempts the running one -/
  line : l = true ↔ ∃ irq, Signals s c irq ∧ s.getPriority irq c < s.runningPriority c
  /-- `current_pending` is the lowest-numbered interrupt of the best priority -/
  best : (∃ irq, Signals s c irq) → Signals s c p ∧
    ∀ irq, Signals s c irq → s.getPriority p c ≤ s.getPriority irq c ∧
      (s.getPriority irq c = s.getPriority p c → p ≤ irq)
  idle : (¬∃ irq, Signals s c irq) → p = 1023

/-- The outputs of the CPU are those of the state. -/
def OutputExact (s : GICState) (c : ℕ) : Prop := OutputIs s c (s.currentPending c) (s.parentIrq c)

/-- The loop of `gic_update` gets to the CPU. -/
def UpdateReaches (s : GICState) (c : ℕ) : Prop := ∀ c' < c, s.live c'

/-- The test of the inner loop. -/
def Candidate (s : GICState) (c irq : ℕ) : Prop :=
  s.testEnabled irq (cpuBit c) ∧ gicTestPending s irq (cpuBit c)

/-- The stored outputs fit the bits of the interrupts : one that is enabled, pending and targets the
CPU, of the least priority and number, or 1023 if none of these is below the mask. -/
def StoredFits (s : GICState) (c : ℕ) : Prop :=
  (s.live c ∧ PendingFor s c (s.currentPending c) ∧ s.currentPending c < s.numIrq ∧
    s.getPriority (s.currentPending c) c < s.priorityMask c ∧
    (∀ irq < s.numIrq, PendingFor s c irq →
      s.getPriority (s.currentPending c) c ≤ s.getPriority irq c ∧
        (s.getPriority irq c = s.getPriority (s.currentPending c) c → s.currentPending c ≤ irq)) ∧
    s.parentIrq c =
      decide (s.getPriority (s.currentPending c) c < s.runningPriority c)) ∨
  (s.live c → ∀ irq < s.numIrq, PendingFor s c irq → s.priorityMask c ≤ s.getPriority irq c) ∧
    s.currentPending c = 1023 ∧ s.parentIrq c = false

/-- When an update leaves the right outputs. -/
structure UpdateExact (s : GICState) : Prop where
  /-- a CPU behind one that is off stores what its interrupts ask for -/
  stale : ∀ c < s.numCpu, ¬UpdateReaches s c → StoredFits s c
  /-- an enabled and pending interrupt that does not target the CPU is not its best one -/
  target : ∀ c < s.numCpu, UpdateReaches s c → s.live c → ∀ irq < s.numIrq, GIC_INTERNAL ≤ irq →
    Candidate s c irq → s.getPriority irq c < s.priorityMask c → ¬(s.irqTarget irq).getLsbD c →
    ∃ irq' < s.numIrq, Candidate s c irq' ∧ (s.getPriority irq' c < s.getPriority irq c ∨
      s.getPriority irq' c = s.getPriority irq c ∧ irq' < irq)

/-! ## The search for the best interrupt -/

/-- `(p, i)` is the best of the first `n` interrupts. -/
structure BestOf (s : GICState) (c n p i : ℕ) : Prop where
  lt : i < n
  cand : Candidate s c i
  prio : p = s.getPriority i c
  least : ∀ irq < n, Candidate s c irq →
    p ≤ s.getPriority irq c ∧ (s.getPriority irq c = p → i ≤ irq)

theorem getPriority_lt (s : GICState) (irq c : ℕ) : s.getPriority irq c < 0x100 := by
  rw [GICState.getPriority]
  split <;> exact BitVec.isLt _

/-- The loop finds a candidate of the best priority, or none. -/
theorem gicBest_spec (s : GICState) (c : ℕ) : ∀ n,
    (gicBest s c n = (0x100, 1023) ∧ ∀ irq < n, ¬Candidate s c irq) ∨
      BestOf s c n (gicBest s c n).1 (gicBest s c n).2
  | 0 => Or.inl ⟨rfl, fun irq h => absurd h (Nat.not_lt_zero irq)⟩
  | n + 1 => by
    have ih := gicBest_spec s c n
    have hprio := getPriority_lt s n c
    rw [gicBest]
    by_cases hn : Candidate s c n
    · by_cases hp : s.getPriority n c < (gicBest s c n).1
      · rw [if_pos (by simp [hn.1, hn.2, hp])]
        refine .inr ⟨n.lt_succ_self, hn, rfl, fun irq hirq hc => ?_⟩
        rcases Nat.lt_succ_iff_lt_or_eq.mp hirq with hlt | rfl
        · rcases ih with ⟨_, hnone⟩ | hbest
          · exact absurd hc (hnone irq hlt)
          · have := (hbest.least irq hlt hc).1
            omega
        · exact ⟨le_rfl, fun _ => le_rfl⟩
      · rw [if_neg (by simp [hp])]
        rcases ih with ⟨heq, _⟩ | hbest
        · rw [heq] at hp
          exact absurd hprio hp
        · refine .inr ⟨hbest.lt.trans n.lt_succ_self, hbest.cand, hbest.prio, fun irq hirq hc => ?_⟩
          rcases Nat.lt_succ_iff_lt_or_eq.mp hirq with hlt | rfl
          · exact hbest.least irq hlt hc
          · have := hbest.lt
            omega
    · rw [if_neg (by rw [Candidate] at hn; simp only [Bool.and_eq_true]; tauto)]
      have hlast : ∀ irq < n + 1, Candidate s c irq → irq < n := by
        intro irq hirq hc
        rcases Nat.lt_succ_iff_lt_or_eq.mp hirq with hlt | rfl
        · exact hlt
        · exact absurd hc hn
      rcases ih with ⟨heq, hnone⟩ | hbest
      · exact .inl ⟨heq, fun irq hirq hc => hnone irq (hlast irq hirq hc) hc⟩
      · exact .inr ⟨hbest.lt.trans n.lt_succ_self, hbest.cand, hbest.prio,
          fun irq hirq hc => hbest.least irq (hlast irq hirq hc) hc⟩

/-! ## One update -/

theorem gicOutput_setOutput (s : GICState) (c p : ℕ) (l : Bool) (cpu : ℕ) :
    gicOutput (s.setOutput c p l) cpu = gicOutput s cpu := by
  rw [gicOutput]
  simp only [gicBest_setOutput]
  rfl

/-- A CPU that the loop does not get to. -/
theorem gicUpdateLoop_kept : ∀ (n cpu : ℕ) (s : GICState) {c : ℕ},
    (c < cpu ∨ ∃ c', cpu ≤ c' ∧ c' < c ∧ ¬s.live c') →
    (gicUpdateLoop n cpu s).currentPending c = s.currentPending c ∧
      (gicUpdateLoop n cpu s).parentIrq c = s.parentIrq c
  | 0, cpu, s, c, _ => ⟨rfl, rfl⟩
  | n + 1, cpu, s, c, h => by
    have hne : c ≠ cpu := by
      rcases h with h | ⟨c', h1, h2, _⟩ <;> omega
    rw [gicUpdateLoop_succ]
    split_ifs with hcpu
    · have hnext : c < cpu + 1 ∨ ∃ c', cpu + 1 ≤ c' ∧ c' < c ∧ ¬s.live c' := by
        rcases h with h | ⟨c', h1, h2, h3⟩
        · exact .inl (h.trans cpu.lt_succ_self)
        · refine .inr ⟨c', ?_, h2, h3⟩
          rcases h1.eq_or_lt with rfl | h1
          · exact absurd hcpu h3
          · exact h1
      obtain ⟨hpending, hline⟩ := gicUpdateLoop_kept n (cpu + 1)
        (s.setOutput cpu (gicOutput s cpu).1 (gicOutput s cpu).2) hnext
      rw [hpending, hline]
      simp [hne]
    · simp [hne]

/-- A CPU that it gets to. -/
theorem gicUpdateLoop_reached : ∀ (n cpu : ℕ) (s : GICState) {c : ℕ}, cpu ≤ c → c < cpu + n →
    (∀ c', cpu ≤ c' → c' < c → s.live c') →
    (gicUpdateLoop n cpu s).currentPending c = (gicOutput s c).1 ∧
      (gicUpdateLoop n cpu s).parentIrq c = (gicOutput s c).2
  | 0, cpu, s, c, hle, hlt, _ => by omega
  | n + 1, cpu, s, c, hle, hlt, hlive => by
    rw [gicUpdateLoop_succ]
    rcases hle.eq_or_lt with rfl | hgt
    · by_cases h : s.live cpu
      · obtain ⟨hpending, hline⟩ := gicUpdateLoop_kept n (cpu + 1)
          (s.setOutput cpu (gicOutput s cpu).1 (gicOutput s cpu).2) (.inl cpu.lt_succ_self)
        rw [if_pos h, hpending, hline]
        simp
      · simp [gicOutput, h]
    · have hrest := gicUpdateLoop_reached n (cpu + 1)
        (s.setOutput cpu (gicOutput s cpu).1 (gicOutput s cpu).2) hgt (by omega)
        (fun c' hc' hlt' => hlive c' (by omega) hlt')
      rw [gicOutput_setOutput] at hrest
      rw [if_pos (hlive cpu le_rfl hgt)]
      exact hrest

/-! ## When the outputs are right -/

section Outputs

variable {s : GICState} {c p : ℕ} {l : Bool} {pending : ℕ → ℕ} {lines : ℕ → Bool}

/-- What can be signalled does not depend on the outputs. -/
theorem signals_outputs {irq} :
    Signals { s with currentPending := pending, parentIrq := lines } c irq ↔ Signals s c irq :=
  ⟨fun h => ⟨h.on, h.lt, ⟨h.pending.enabled, h.pending.pending, h.pending.target⟩, h.masked⟩,
    fun h => ⟨h.on, h.lt, ⟨h.pending.enabled, h.pending.pending, h.pending.target⟩, h.masked⟩⟩

theorem getPriority_outputs (irq : ℕ) :
    GICState.getPriority { s with currentPending := pending, parentIrq := lines } irq c =
      s.getPriority irq c := rfl

theorem outputIs_outputs :
    OutputIs { s with currentPending := pending, parentIrq := lines } c p l ↔ OutputIs s c p l := by
  constructor
  · rintro ⟨hline, hbest, hidle⟩
    simp only [signals_outputs, getPriority_outputs] at hline hbest hidle
    exact ⟨hline, hbest, hidle⟩
  · rintro ⟨hline, hbest, hidle⟩
    constructor <;> simpa only [signals_outputs, getPriority_outputs]

/-- The outputs of a CPU for which nothing can be signalled. -/
theorem outputIs_none (h : ∀ irq, ¬Signals s c irq) : OutputIs s c 1023 false :=
  ⟨by simpa using fun irq hs => absurd hs (h irq), fun ⟨irq, hs⟩ => absurd hs (h irq), fun _ => rfl⟩

theorem signals_iff_of_live {irq} (hlive : s.live c) : Signals s c irq ↔
    irq < s.numIrq ∧ PendingFor s c irq ∧ s.getPriority irq c < s.priorityMask c :=
  ⟨fun h => ⟨h.lt, h.pending, h.masked⟩,
    fun h => ⟨by simpa [GICState.live] using hlive, h.1, h.2.1, h.2.2⟩⟩

theorem Signals.live {irq} (h : Signals s c irq) : s.live c := by
  simpa [GICState.live] using h.on

theorem outputExact_iff : OutputExact s c ↔ StoredFits s c := by
  constructor
  · intro h
    by_cases hsome : ∃ irq, Signals s c irq
    · obtain ⟨hp, hleast⟩ := h.best hsome
      have hlive := hp.live
      refine .inl ⟨hlive, hp.pending, hp.lt, hp.masked, fun irq hlt hirq => ?_, ?_⟩
      · by_cases hm : s.getPriority irq c < s.priorityMask c
        · exact hleast irq ((signals_iff_of_live hlive).2 ⟨hlt, hirq, hm⟩)
        · have := hp.masked
          omega
      · rw [Bool.eq_iff_iff, h.line, decide_eq_true_iff]
        exact ⟨fun ⟨irq, hs, hr⟩ => (hleast irq hs).1.trans_lt hr, fun hr => ⟨_, hp, hr⟩⟩
    · refine .inr ⟨fun hlive irq hlt hirq => ?_, h.idle hsome, ?_⟩
      · by_contra hm
        exact hsome ⟨irq, (signals_iff_of_live hlive).2 ⟨hlt, hirq, not_le.1 hm⟩⟩
      · rw [← Bool.not_eq_true, h.line]
        exact fun ⟨irq, hs, _⟩ => hsome ⟨irq, hs⟩
  · rintro (⟨hlive, hp, hlt, hm, hleast, hline⟩ | ⟨hnone, hp, hline⟩)
    · have hs := (signals_iff_of_live hlive).2 ⟨hlt, hp, hm⟩
      refine ⟨?_, fun _ => ⟨hs, fun irq h => hleast irq h.lt h.pending⟩, fun h => absurd ⟨_, hs⟩ h⟩
      rw [hline, decide_eq_true_iff]
      exact ⟨fun hr => ⟨_, hs, hr⟩, fun ⟨irq, h, hr⟩ => (hleast irq h.lt h.pending).1.trans_lt hr⟩
    · rw [OutputExact, hp, hline]
      exact outputIs_none fun irq h => absurd h.masked (not_lt.2 (hnone h.live irq h.lt h.pending))

theorem Signals.candidate {irq} (h : Signals s c irq) : Candidate s c irq :=
  ⟨h.pending.enabled, h.pending.pending⟩

/-- The best interrupt is signalled, if it is below the mask and allowed for the CPU. -/
theorem BestOf.outputIs {i} (h : BestOf s c s.numIrq p i) (hlive : s.live c)
    (hmask : p < s.priorityMask c) (htarget : GIC_INTERNAL ≤ i → (s.irqTarget i).getLsbD c) :
    OutputIs s c i (decide (p < s.runningPriority c)) := by
  have hi : Signals s c i :=
    ⟨by simpa [GICState.live] using hlive, h.lt, ⟨h.cand.1, h.cand.2, htarget⟩, h.prio ▸ hmask⟩
  refine ⟨?_, fun _ => ⟨hi, fun irq hs => ?_⟩, fun hnone => absurd ⟨i, hi⟩ hnone⟩
  · rw [decide_eq_true_iff]
    constructor
    · intro hp
      exact ⟨i, hi, h.prio ▸ hp⟩
    · rintro ⟨irq, hs, hp⟩
      exact (h.least irq hs.lt hs.candidate).1.trans_lt hp
  · rw [← h.prio]
    exact h.least irq hs.lt hs.candidate

/-- What the loop stores for a CPU that is on is right when no interrupt that does not target the
CPU is the best one. -/
theorem outputIs_gicOutput_iff (hirq : s.numIrq ≤ GIC_MAXIRQ) (hmask : s.priorityMask c ≤ 0xff)
    (hlive : s.live c) :
    OutputIs s c (gicOutput s c).1 (gicOutput s c).2 ↔
      ∀ irq < s.numIrq, GIC_INTERNAL ≤ irq → Candidate s c irq →
        s.getPriority irq c < s.priorityMask c → ¬(s.irqTarget irq).getLsbD c →
        ∃ irq' < s.numIrq, Candidate s c irq' ∧ (s.getPriority irq' c < s.getPriority irq c ∨
          s.getPriority irq' c = s.getPriority irq c ∧ irq' < irq) := by
  rw [gicOutput, if_pos hlive]
  rcases gicBest_spec s c s.numIrq with ⟨hbest, hnone⟩ | hbest
  · have hout : ¬(gicBest s c s.numIrq).1 < s.priorityMask c := by
      rw [hbest]
      omega
    rw [if_neg hout]
    exact ⟨fun _ irq hlt _ hc => absurd hc (hnone irq hlt),
      fun _ => outputIs_none fun irq hs => hnone irq hs.lt hs.candidate⟩
  · split_ifs with hlow
    · constructor
      · intro h irq hlt hshared hc hprio htarget
        refine ⟨_, hbest.lt, hbest.cand, ?_⟩
        -- the interrupt stored is a number of an interrupt, not 1023
        have hne : (gicBest s c s.numIrq).2 ≠ irq := by
          rintro rfl
          by_cases hsome : ∃ irq, Signals s c irq
          · exact htarget ((h.best hsome).1.pending.target hshared)
          · have h1023 := h.idle hsome
            rw [GIC_MAXIRQ] at hirq
            omega
        have hleast := hbest.least irq hlt hc
        rw [← hbest.prio]
        omega
      · refine fun h => hbest.outputIs hlive hlow fun hshared => ?_
        by_contra htarget
        obtain ⟨irq, hlt, hc, hless⟩ := h _ hbest.lt hshared hbest.cand (hbest.prio ▸ hlow) htarget
        have hleast := hbest.least irq hlt hc
        rw [← hbest.prio] at hless
        omega
    · refine ⟨fun _ irq hlt _ hc hprio => ?_, fun _ => outputIs_none fun irq hs => ?_⟩
      · exact absurd ((hbest.least irq hlt hc).1.trans_lt hprio) hlow
      · exact hlow ((hbest.least irq hs.lt hs.candidate).1.trans_lt hs.masked)

end Outputs

/-- `gic_update` leaves the right outputs exactly when `UpdateExact` holds before. -/
theorem gicUpdate_exact_iff {u} (hirq : u.numIrq ≤ GIC_MAXIRQ)
    (hmask : ∀ c, u.priorityMask c ≤ 0xff) :
    (∀ c < (gicUpdate u).numCpu, OutputExact (gicUpdate u) c) ↔ UpdateExact u := by
  obtain ⟨pending, lines, hframe⟩ := gicUpdate_frame u
  have hcpu : (gicUpdate u).numCpu = u.numCpu := by rw [hframe]
  have hexact : ∀ c, OutputExact (gicUpdate u) c ↔
      OutputIs u c ((gicUpdate u).currentPending c) ((gicUpdate u).parentIrq c) := by
    intro c
    rw [OutputExact, hframe, outputIs_outputs]
  have hreached : ∀ c < u.numCpu, UpdateReaches u c →
      (OutputExact (gicUpdate u) c ↔ OutputIs u c (gicOutput u c).1 (gicOutput u c).2) := by
    intro c hc hr
    obtain ⟨h1, h2⟩ := gicUpdateLoop_reached u.numCpu 0 u (Nat.zero_le c) (by omega)
      (fun c' _ hlt => hr c' hlt)
    rw [hexact, gicUpdate, h1, h2]
  have hkept : ∀ c, ¬UpdateReaches u c → (OutputExact (gicUpdate u) c ↔ OutputExact u c) := by
    intro c hr
    rw [UpdateReaches] at hr
    push Not at hr
    obtain ⟨c', hlt, hoff⟩ := hr
    obtain ⟨h1, h2⟩ := gicUpdateLoop_kept u.numCpu 0 u (Or.inr ⟨c', Nat.zero_le c', hlt, hoff⟩)
    rw [hexact, gicUpdate, h1, h2, OutputExact]
  rw [hcpu]
  constructor
  · intro h
    refine ⟨fun c hc hr => outputExact_iff.mp ((hkept c hr).mp (h c hc)), fun c hc hr hlive => ?_⟩
    exact (outputIs_gicOutput_iff hirq (hmask c) hlive).mp ((hreached c hc hr).mp (h c hc))
  · intro h c hc
    by_cases hr : UpdateReaches u c
    · refine (hreached c hc hr).mpr ?_
      by_cases hlive : u.live c
      · exact (outputIs_gicOutput_iff hirq (hmask c) hlive).mpr (h.target c hc hr hlive)
      · rw [gicOutput, if_neg hlive]
        refine outputIs_none fun irq hs => hlive ?_
        rw [GICState.live, hs.on.1, hs.on.2]
        rfl
    · exact (hkept c hr).mpr (outputExact_iff.mpr (h.stale c hc hr))

/-! ## Runs -/

/-- The runs of a device : any operations from reset on. -/
def GicReach (cfg : GicConfig) : GICState → Prop :=
  Reach gicStep GicOp.Wired (armGicCommonReset cfg)

theorem GicReach.wf {cfg s} (h : GicReach cfg s) : GicWf cfg s := by
  refine Reach.invariant (gicWf_reset cfg) (fun s op s' hwf _ hs => ?_) h
  obtain ⟨⟨v, out⟩, hrun, rfl⟩ := Option.map_eq_some_iff.mp hs
  exact (GicOutcome.frame_state (GicOp.run_frame hwf hrun)).wf hwf

/-- An operation that ends in `gic_update`, called on `u`,
leaves the right outputs for all CPUs exactly when `UpdateExact u`. -/
theorem gicUpdate_outputs_iff {cfg : GicConfig} {s u : GICState} {op : GicOp} {v : ℕ}
    (h : GicReach cfg s) (hrun : op.run s = some (v, .update u)) :
    (∀ c < cfg.numCpu, OutputExact (gicUpdate u) c) ↔ UpdateExact u := by
  have hwf : GicWf cfg u := (GicOp.run_frame h.wf hrun).wf h.wf
  have hcpu : (gicUpdate u).numCpu = cfg.numCpu := ((gicFrame_update u).wf hwf).numCpu
  rw [← hcpu]
  exact gicUpdate_exact_iff (hwf.numIrq.trans_le cfg.numIrq_le) hwf.mask

/-- A board with one CPU. -/
def gicUniprocessor : GicConfig := ⟨1, 64, 2, by decide, by decide, by decide, by decide, by decide⟩

/-- A board with two CPUs. -/
def gicDual : GicConfig := ⟨2, 64, 2, by decide, by decide, by decide, by decide, by decide⟩

instance (s : GICState) (op : GicOp) : Decidable (op.Wired s) := by
  cases op <;> exact Nat.decLt _ _

/-- The state on which the operation calls `gic_update`, after the others. -/
def updatedAfter (cfg : GicConfig) (ops : List GicOp) (op : GicOp) : Option GICState :=
  (ops.foldlM (Reach.checked gicStep fun s op => op.Wired s) (armGicCommonReset cfg)).bind fun s =>
    (op.run s).bind fun r => match r.2 with
      | .update u => some u
      | .stay _ => none

theorem reach_of_updatedAfter {cfg ops op u} (h : updatedAfter cfg ops op = some u) :
    ∃ s v, GicReach cfg s ∧ op.run s = some (v, .update u) := by
  obtain ⟨s, hs, h⟩ := Option.bind_eq_some_iff.mp h
  obtain ⟨⟨v, out⟩, hrun, hout⟩ := Option.bind_eq_some_iff.mp h
  cases out with
  | stay s => cases hout
  | update u' =>
    cases hout
    exact ⟨s, v, Reach.foldlM_checked (fun _ _ h => h) ops .refl hs, hrun⟩

/-- CPU 1 sends itself an SGI while the interface of CPU 0 is off. -/
def sgiBehindDisabled : List GicOp :=
  [.distWriteb 1 0 1, .cpuWrite 1 0 1, .cpuWrite 1 4 0xff]

/-- Both interfaces are on, and the shared interrupt 32 is enabled, for the targets given. -/
def sharedFor (targets : BitVec 8) : List GicOp :=
  [.distWriteb 0 0 1, .cpuWrite 0 0 1, .cpuWrite 0 4 0xff, .cpuWrite 1 0 1, .cpuWrite 1 4 0xff,
    .distWriteb 0 0x820 targets, .distWriteb 0 0x104 1]

/-- The line of CPU 1 stays low with an SGI pending for it, and goes high for an interrupt
that targets another CPU only. -/
theorem gicUpdate_outputs_fail :
    (∃ u, updatedAfter gicDual sgiBehindDisabled (.distWritel 1 0xf00 0x02000000) = some u ∧
      ¬OutputExact (gicUpdate u) 1) ∧
    ∃ u, updatedAfter gicDual (sharedFor 1) (.setIrq 0 1) = some u ∧
      ¬OutputExact (gicUpdate u) 1 := by
  constructor
  · have hrun : (updatedAfter gicDual sgiBehindDisabled (.distWritel 1 0xf00 0x02000000)).map
        (fun u => decide (Signals (gicUpdate u) 1 0 ∧ (gicUpdate u).parentIrq 1 = false ∧
          (gicUpdate u).getPriority 0 1 < (gicUpdate u).runningPriority 1)) = some true := by
      decide +kernel
    obtain ⟨u, hu, hout⟩ := Option.map_eq_some_iff.mp hrun
    obtain ⟨hsignals, hline, hprio⟩ := of_decide_eq_true hout
    refine ⟨u, hu, fun h => ?_⟩
    rw [h.line.mpr ⟨0, hsignals, hprio⟩] at hline
    exact absurd hline (by decide)
  · have hrun : (updatedAfter gicDual (sharedFor 1) (.setIrq 0 1)).map
        (fun u => decide ((gicUpdate u).numIrq = 64 ∧ (gicUpdate u).parentIrq 1 = true ∧
          ∀ irq ∈ List.range 64, ¬Signals (gicUpdate u) 1 irq)) = some true := by
      decide +kernel
    obtain ⟨u, hu, hout⟩ := Option.map_eq_some_iff.mp hrun
    obtain ⟨hirq, hline, hnone⟩ := of_decide_eq_true hout
    refine ⟨u, hu, fun h => ?_⟩
    obtain ⟨irq, hsignals, -⟩ := h.line.mp hline
    exact hnone irq (List.mem_range.mpr (hirq ▸ hsignals.lt)) hsignals

/-- The shared interrupt 32 with both CPUs as its targets : raising its line signals it to both. -/
theorem gicUpdate_outputs_bothCpus :
    ∃ u, updatedAfter gicDual (sharedFor 3) (.setIrq 0 1) = some u ∧
      ∀ c < 2, OutputExact (gicUpdate u) c ∧
        (gicUpdate u).currentPending c = 32 ∧ (gicUpdate u).parentIrq c = true := by
  have hrun : (updatedAfter gicDual (sharedFor 3) (.setIrq 0 1)).map (fun u =>
      decide (u.numCpu = 2 ∧ u.numIrq = 64 ∧ ∀ c < 2, u.live c ∧
        (∀ irq < 64, GIC_INTERNAL ≤ irq → gicTestPending u irq (cpuBit c) →
          (u.irqTarget irq).getLsbD c) ∧
        (gicUpdate u).currentPending c = 32 ∧ (gicUpdate u).parentIrq c = true)) = some true := by
    decide +kernel
  obtain ⟨u, hu, hout⟩ := Option.map_eq_some_iff.mp hrun
  obtain ⟨hcpu, hirq, hout⟩ := of_decide_eq_true hout
  obtain ⟨s, v, hreach, hop⟩ := reach_of_updatedAfter hu
  refine ⟨u, hu, fun c hc =>
    ⟨(gicUpdate_outputs_iff hreach hop).mpr ⟨?_, ?_⟩ c hc, (hout c hc).2.2⟩⟩
  · intro c hc hr
    exact absurd (fun c' hlt => (hout c' (by omega)).1) hr
  · intro c hc _ _ irq hlt hshared hcand _ htarget
    exact absurd ((hout c (by omega)).2.1 irq (by omega) hshared hcand.2) htarget

end QemuArm
