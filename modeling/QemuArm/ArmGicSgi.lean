import QemuArm.ArmGicUpdate

/-!
# Software-generated interrupts

Of an SGI the controller keeps twice whether it is pending for a CPU : as a bit of `pending`,
and as the sources in `sgi_pending`. `sgi_bookkeeping` : the two agree in every run whose
accesses are `SgiOk`, an acknowledge never fails its assertion, and what was sent was
acknowledged once, cleared once, or is still there (`SgiLog`).
`sgi_bookkeeping_fail` writes a zero byte to `GICD_SPENDSGIRn`, which sets the bit without
a source, and reads `GICC_IAR`.
-/

namespace QemuArm

open GICState Option

/-! ## The two representations -/

variable (s : GICState)

/-- The bit of an SGI is set for a CPU exactly when the SGI has a source there. -/
def SgiConsistent : Prop :=
  ∀ n < GIC_NR_SGIS, ∀ c < GIC_NCPU, (s.irqState n).pending.getLsbD c = true ↔ s.sgiPending n c ≠ 0

/-- What the CPU would acknowledge is an interrupt, and if it is an SGI, pending for it. -/
structure CurrentOk (s : GICState) (c : ℕ) : Prop where
  le : s.currentPending c ≤ 1023
  pending : s.currentPending c < GIC_NR_SGIS →
    (s.irqState (s.currentPending c)).pending.getLsbD c = true

/-- How often an SGI was sent, acknowledged and cleared, by SGI, target and source. Sending
an SGI that the source has already made pending at the target does not count. -/
structure SgiLog where
  sent : ℕ → ℕ → ℕ → ℕ
  acked : ℕ → ℕ → ℕ → ℕ
  cleared : ℕ → ℕ → ℕ → ℕ

open SgiLog

/-- Add one where the test holds. -/
def bump (count : ℕ → ℕ → ℕ → ℕ) (test : ℕ → ℕ → ℕ → Bool) : ℕ → ℕ → ℕ → ℕ :=
  fun n t src => count n t src + (test n t src).toNat

namespace SgiLog

def writeb (s : GICState) (cpu offset : ℕ) (value : BitVec 8) (log : SgiLog) : SgiLog :=
  if 0xf10 ≤ offset ∧ offset < 0xf20 then
    { log with
      cleared := bump log.cleared fun n t src =>
        decide (n = offset - 0xf10) && decide (t = cpu) && value.getLsbD src &&
          (s.sgiPending n t).getLsbD src }
  else if 0xf20 ≤ offset ∧ offset < 0xf30 then
    { log with
      sent := bump log.sent fun n t src =>
        decide (n = offset - 0xf20) && decide (t = cpu) && value.getLsbD src &&
          !(s.sgiPending n t).getLsbD src }
  else log

def writew (s : GICState) (cpu offset : ℕ) (value : BitVec 16) (log : SgiLog) : SgiLog :=
  (log.writeb s cpu offset (value.setWidth 8)).writeb
    (gicDistWriteb s cpu offset (value.setWidth 8)).state cpu (offset + 1)
    ((value >>> 8).setWidth 8)

def writel (s : GICState) (cpu offset : ℕ) (value : BitVec 32) (log : SgiLog) : SgiLog :=
  if offset = 0xf00 then
    { log with
      sent := bump log.sent fun n t src =>
        decide (n = (value &&& 0x3ff).toNat) && (sgiMask cpu value).getLsbD t &&
          decide (src = cpu) && !(s.sgiPending n t).getLsbD src }
  else
    (log.writew s cpu offset (value.setWidth 16)).writew
      (gicDistWritew s cpu offset (value.setWidth 16)).state cpu (offset + 2)
      ((value >>> 16).setWidth 16)

/-- The CPU reads `v` from `GICC_IAR` : the interrupt, and for an SGI the source. -/
def acknowledge (cpu v : ℕ) (log : SgiLog) : SgiLog :=
  { log with
    acked := bump log.acked fun n t src =>
      decide (n < GIC_NR_SGIS) && decide (n = v &&& 0x3ff) && decide (t = cpu) &&
        decide (src = v >>> 10) }

/-- The log of an access that reads `v`. -/
def record (s : GICState) (v : ℕ) (log : SgiLog) : GicOp → SgiLog
  | .distWriteb cpu offset value => log.writeb s cpu offset value
  | .distWritew cpu offset value => log.writew s cpu offset value
  | .distWritel cpu offset value => log.writel s cpu offset value
  | .cpuRead cpu offset => if offset = 0x0c then log.acknowledge cpu v else log
  | _ => log

/-- What was sent was acknowledged once, cleared once, or is still there. -/
def Balanced (log : SgiLog) (s : GICState) : Prop :=
  ∀ n < GIC_NR_SGIS, ∀ t src, log.sent n t src =
    log.acked n t src + log.cleared n t src + ((s.sgiPending n t).getLsbD src).toNat

end SgiLog

def sgiStep (op : GicOp) (r : GICState × SgiLog) : Option (GICState × SgiLog) :=
  (op.run r.1).map fun o => (o.2.state, r.2.record r.1 o.1 op)

/-! ## The accesses that keep them together -/

/-- A byte written to `GICD_SPENDSGIRn` names a source, or there is one already. One written
to `GICD_CPENDSGIRn` may only take away all sources of the SGI that the CPU would acknowledge
where the update reaches that CPU. -/
structure SgiByteOk (s : GICState) (cpu offset : ℕ) (value : BitVec 8) : Prop where
  raise : ∀ n < GIC_NR_SGIS, offset = 0xf20 + n → value ≠ 0 ∨ s.sgiPending n cpu ≠ 0
  clear : ∀ n < GIC_NR_SGIS, offset = 0xf10 + n → s.currentPending cpu = n →
    s.sgiPending n cpu &&& ~~~value = 0 → UpdateReaches s cpu

def SgiWordOk (cpu offset : ℕ) (value : BitVec 16) : Prop :=
  SgiByteOk s cpu offset (value.setWidth 8) ∧
    SgiByteOk (gicDistWriteb s cpu offset (value.setWidth 8)).state cpu (offset + 1)
      ((value >>> 8).setWidth 8)

/-- An acknowledge that takes the last source of an SGI : the update reaches the CPU, and no
other CPU has a source of an SGI with the 1:N model. -/
def SgiAckOk (cpu : ℕ) : Prop :=
  ∀ n < GIC_NR_SGIS, s.currentPending cpu = n → s.getPriority n cpu < s.runningPriority cpu →
    s.sgiPending n cpu &&& ~~~cpuBit (ctz32 (s.sgiPending n cpu).toNat) = 0 →
    UpdateReaches s cpu ∧ (s.testModel n → ∀ c < GIC_NCPU, c ≠ cpu → s.sgiPending n c = 0)

/-- `GICD_SGIR` names an SGI, or no target. -/
def SgirOk (cpu : ℕ) (value : BitVec 32) : Prop :=
  (value &&& 0x3ff).toNat < GIC_NR_SGIS ∨
    (value &&& 0x3ff).toNat < GIC_MAXIRQ ∧ sgiMask cpu value = 0

def SgiOk : GicOp → Prop
  | .distWriteb cpu offset value => SgiByteOk s cpu offset value
  | .distWritew cpu offset value => SgiWordOk s cpu offset value
  | .distWritel cpu offset value =>
    if offset = 0xf00 then SgirOk cpu value
    else SgiWordOk s cpu offset (value.setWidth 16) ∧
      SgiWordOk (gicDistWritew s cpu offset (value.setWidth 16)).state cpu (offset + 2)
        ((value >>> 16).setWidth 16)
  | .cpuRead cpu offset => offset = 0x0c → SgiAckOk s cpu
  | _ => True

/-! ## The invariant -/

/-- The bookkeeping of the SGIs, with what was sent so far. -/
structure SgiInv (cfg : GicConfig) (r : GICState × SgiLog) : Prop where
  wf : GicWf cfg r.1
  consistent : SgiConsistent r.1
  current : ∀ c < r.1.numCpu, CurrentOk r.1 c
  balanced : r.2.Balanced r.1

variable {n : ℕ}

section Update

variable {cfg : GicConfig} {s u : GICState} {c : ℕ}

theorem testPending_sgi (hwf : GicWf cfg s) (hn : n < GIC_NR_SGIS)
    (h : gicTestPending s n (cpuBit c) = true) : (s.irqState n).pending.getLsbD c = true := by
  rw [gicTestPending] at h
  have hlevel : s.testLevel n (cpuBit c) = false := by
    simp [testLevel, hwf.low n hn]
  rw [hlevel] at h
  exact and_cpuBit_ne_zero.mp (by simpa using h)

/-- What an update makes current is pending. -/
theorem gicOutput_pending (hwf : GicWf cfg s) (h : (gicOutput s c).1 < GIC_NR_SGIS) :
    (s.irqState (gicOutput s c).1).pending.getLsbD c = true := by
  have h1023 : ¬1023 < GIC_NR_SGIS := by decide
  rw [gicOutput] at h ⊢
  split at h
  · rename_i hlive
    split at h
    · rename_i hmask
      rw [if_pos hlive, if_pos hmask]
      rcases gicBest_spec s c s.numIrq with ⟨hbest, _⟩ | hbest
      · rw [hbest] at h
        exact absurd h h1023
      · exact testPending_sgi hwf h hbest.cand.2
    · exact absurd h h1023
  · exact absurd h h1023

theorem gicOutput_le (hwf : GicWf cfg s) : (gicOutput s c).1 ≤ 1023 := by
  rw [gicOutput]
  split
  · split
    · rcases gicBest_spec s c s.numIrq with ⟨hbest, _⟩ | hbest
      · rw [hbest]
      · have hlt := hbest.lt
        have hle := cfg.numIrq_le
        rw [GIC_MAXIRQ, ← hwf.numIrq] at hle
        omega
    · exact le_rfl
  · exact le_rfl

/-- An update keeps the bookkeeping : a CPU that it does not reach must be right before. -/
theorem SgiInv.update {log} (hwf : GicWf cfg u) (hcons : SgiConsistent u)
    (hcur : ∀ c < u.numCpu, ¬UpdateReaches u c → CurrentOk u c) (hbal : log.Balanced u) :
    SgiInv cfg (gicUpdate u, log) := by
  obtain ⟨pending, lines, hframe⟩ := gicUpdate_frame u
  have hirq : (gicUpdate u).irqState = u.irqState := by rw [hframe]
  have hsgi : (gicUpdate u).sgiPending = u.sgiPending := by rw [hframe]
  refine ⟨(gicFrame_update u).wf hwf, ?_, fun c hc => ?_, ?_⟩
  · rw [SgiConsistent, hirq, hsgi]
    exact hcons
  · have hc' : c < u.numCpu := (gicFrame_update u).numCpu ▸ hc
    suffices hall : ∃ p, (gicUpdate u).currentPending c = p ∧ p ≤ 1023 ∧
        (p < GIC_NR_SGIS → (u.irqState p).pending.getLsbD c = true) by
      obtain ⟨p, rfl, hle, hbit⟩ := hall
      exact ⟨hle, by rw [hirq]; exact hbit⟩
    by_cases hr : UpdateReaches u c
    · obtain ⟨h1, -⟩ := gicUpdateLoop_reached u.numCpu 0 u (Nat.zero_le c) (by omega)
        (fun c' _ hlt => hr c' hlt)
      exact ⟨_, h1, gicOutput_le hwf, gicOutput_pending hwf⟩
    · have hr' := hr
      rw [UpdateReaches] at hr'
      push Not at hr'
      obtain ⟨c', hlt, hoff⟩ := hr'
      obtain ⟨h1, -⟩ := gicUpdateLoop_kept u.numCpu 0 u (Or.inr ⟨c', Nat.zero_le c', hlt, hoff⟩)
      exact ⟨_, h1, (hcur c hc' hr).le, (hcur c hc' hr).pending⟩
  · rw [SgiLog.Balanced, hsgi]
    exact hbal

end Update

/-! ## One access -/

theorem update2_apply {α : Type} (a : ℕ → ℕ → α) (i j : ℕ) (v : α) (m c : ℕ) :
    update2 a i j v m c = if m = i ∧ c = j then v else a m c := by
  rw [update2]
  by_cases hm : m = i
  · subst hm
    by_cases hc : c = j
    · subst hc
      simp
    · simp [hc]
  · simp [hm]

/-- The mask of pending CPUs, after some were taken away. -/
theorem pending_clear (n : ℕ) (cm : BitVec 8) (m c : ℕ) :
    ((s.clearPending n cm).irqState m).pending.getLsbD c =
      ((s.irqState m).pending.getLsbD c && !(decide (m = n) && cm.getLsbD c)) := by
  by_cases hm : m = n
  · subst hm
    simp only [clearPending, setIrqState, Function.update_self, andNot_getLsbD]
    simp
  · simp [clearPending, hm]

theorem pending_set (n : ℕ) (cm : BitVec 8) (m c : ℕ) :
    ((s.setPending n cm).irqState m).pending.getLsbD c =
      ((s.irqState m).pending.getLsbD c || (decide (m = n) && cm.getLsbD c)) := by
  by_cases hm : m = n
  · subst hm
    simp [setPending]
  · simp [setPending, hm]

section Access

variable {cfg : GicConfig} {s u : GICState} {log : SgiLog} {cpu : ℕ}

theorem SgiInv.quiet (h : SgiInv cfg (s, log)) (hq : SgiQuiet s u) : SgiInv cfg (u, log) := by
  refine ⟨hq.toGicFrame.wf h.wf, fun n hn c hc => ?_, fun c hc => ?_, fun n hn t src => ?_⟩
  · rw [hq.pending n hn, hq.sgi]
    exact h.consistent n hn c hc
  · have hcur := h.current c (hq.numCpu ▸ hc)
    refine ⟨hq.current ▸ hcur.le, fun hn => ?_⟩
    rw [hq.current] at hn ⊢
    rw [hq.pending _ hn]
    exact hcur.pending hn
  · rw [hq.sgi]
    exact h.balanced n hn t src

/-- `gic_update` on a state with the bookkeeping in order. -/
theorem SgiInv.gicUpdate (h : SgiInv cfg (s, log)) : SgiInv cfg (gicUpdate s, log) :=
  .update h.wf h.consistent (fun c hc _ => h.current c hc) h.balanced

/-- A CPU whose pending SGIs are kept stays right. -/
theorem CurrentOk.mono {c} (h : CurrentOk s c) (hcur : u.currentPending = s.currentPending)
    (hkeep : ∀ n < GIC_NR_SGIS, n = s.currentPending c →
      (s.irqState n).pending.getLsbD c = true → (u.irqState n).pending.getLsbD c = true) :
    CurrentOk u c := by
  refine ⟨hcur ▸ h.le, fun hn => ?_⟩
  rw [hcur] at hn ⊢
  exact hkeep _ hn rfl (h.pending hn)

/-- Sources were added, and a bit set where one was. -/
theorem SgiInv.raise {log'} (h : SgiInv cfg (s, log)) (hframe : GicFrame s u)
    (hcur : u.currentPending = s.currentPending)
    (hkeep : ∀ n c, (s.irqState n).pending.getLsbD c = true →
      (u.irqState n).pending.getLsbD c = true) (hcons : SgiConsistent u) (hbal : log'.Balanced u) :
    SgiInv cfg (QemuArm.gicUpdate u, log') :=
  .update (hframe.wf h.wf) hcons
    (fun c hc _ => (h.current c (hframe.numCpu ▸ hc)).mono hcur fun n _ _ => hkeep n c) hbal

variable {value : BitVec 8}

section

variable (h : SgiInv cfg (s, log))
include h

/-- A write to the register that sets pending bits. -/
theorem raiseSgi_inv (hn : n < GIC_NR_SGIS) (hcpu : cpu < GIC_NCPU)
    (hok : value ≠ 0 ∨ s.sgiPending n cpu ≠ 0) :
    SgiInv cfg (gicUpdate (raiseSgi s cpu n value), log.writeb s cpu (0xf20 + n) value) := by
  have hbit : ∀ m c, ((raiseSgi s cpu n value).irqState m).pending.getLsbD c =
      ((s.irqState m).pending.getLsbD c || (decide (m = n) && decide (c = cpu))) := by
    intro m c
    rw [← cpuBit_getLsbD_of_lt hcpu]
    exact pending_set s n (cpuBit cpu) m c
  have hsgi : ∀ m c, (raiseSgi s cpu n value).sgiPending m c =
      if m = n ∧ c = cpu then s.sgiPending n cpu ||| value else s.sgiPending m c :=
    fun m c => update2_apply _ _ _ _ m c
  refine h.raise ((GicFrame.setIrqState rfl).trans (.setSgiPending _ _ _)) rfl (fun m c hb => ?_)
    (fun m hm c hc => ?_) fun m hm t src => ?_
  · rw [hbit, hb, Bool.true_or]
  · rw [hbit, hsgi]
    by_cases hmc : m = n ∧ c = cpu
    · obtain ⟨rfl, rfl⟩ := hmc
      simp
      tauto
    · rw [if_neg hmc, ← h.consistent m hm c hc]
      simp
      tauto
  · have hbal := h.balanced m hm t src
    rw [GIC_NR_SGIS] at hn
    rw [writeb, if_neg (by omega), if_pos (by omega)]
    simp only [bump, hsgi, Nat.add_sub_cancel_left]
    by_cases hmc : m = n ∧ t = cpu
    · obtain ⟨rfl, rfl⟩ := hmc
      rw [if_pos ⟨rfl, rfl⟩, BitVec.getLsbD_or]
      cases hb : (s.sgiPending m t).getLsbD src <;> cases hv : value.getLsbD src <;>
        simp [hb] at hbal ⊢ <;> omega
    · rw [if_neg hmc]
      have : (decide (m = n) && decide (t = cpu)) = false := by simpa using hmc
      rw [this]
      simpa using hbal

/-- The sources of one SGI at one CPU became `left`, and its bit went with the last one. -/
theorem SgiInv.drop {log' left} (hframe : GicFrame s u)
    (hcurrent : u.currentPending = s.currentPending) (hlive : u.live = s.live)
    (hleft : left ≠ 0 → s.sgiPending n cpu ≠ 0) (hbit : ∀ m < GIC_NR_SGIS, ∀ c < GIC_NCPU,
      (u.irqState m).pending.getLsbD c = ((s.irqState m).pending.getLsbD c && !decide ((m = n ∧ c =
      cpu) ∧ left = 0))) (hsgi : ∀ m c, u.sgiPending m c = if m = n ∧ c = cpu then left else
      s.sgiPending m c) (hok : s.currentPending cpu = n → left = 0 → UpdateReaches s cpu)
    (hbal : log'.Balanced u) : SgiInv cfg (QemuArm.gicUpdate u, log') := by
  refine .update (hframe.wf h.wf) (fun m hm c hc => ?_) (fun c hc hreach => ?_) hbal
  · have hcons := h.consistent m hm c hc
    rw [hbit m hm c hc, hsgi]
    by_cases hmc : m = n ∧ c = cpu
    · obtain ⟨rfl, rfl⟩ := hmc
      by_cases h0 : left = 0
      · simp [h0]
      · rw [hcons.mpr (hleft h0), decide_eq_false fun hall => h0 hall.2]
        simpa using h0
    · simpa [hmc] using hcons
  · have hc' : c < s.numCpu := hframe.numCpu ▸ hc
    refine (h.current c hc').mono hcurrent fun m hm hmcur hb => ?_
    have hc8 : c < GIC_NCPU := (h.wf.numCpu ▸ hc').trans_le cfg.numCpu_le
    rw [hbit m hm c hc8, hb, Bool.true_and, Bool.not_eq_true', decide_eq_false_iff_not]
    rintro ⟨⟨rfl, rfl⟩, h0⟩
    refine hreach fun c' hlt => ?_
    rw [hlive]
    exact hok hmcur.symm h0 c' hlt

/-- A write to the register that clears pending bits. -/
theorem clearSgi_inv (hn : n < GIC_NR_SGIS) (hcpu : cpu < GIC_NCPU)
    (hok : s.currentPending cpu = n → s.sgiPending n cpu &&& ~~~value = 0 → UpdateReaches s cpu) :
    SgiInv cfg (gicUpdate (clearSgi s cpu n value), log.writeb s cpu (0xf10 + n) value) := by
  obtain ⟨left, hleft⟩ := @exists_eq _ (s.sgiPending n cpu &&& ~~~value)
  have hsgi : ∀ m c, (clearSgi s cpu n value).sgiPending m c =
      if m = n ∧ c = cpu then left else s.sgiPending m c := by
    intro m c
    rw [← update2_apply, clearSgi, ← hleft]
    split <;> rfl
  have hframe : GicFrame s (clearSgi s cpu n value) :=
    iteInduction (fun _ => (GicFrame.setSgiPending _ _ _).trans (.setIrqState rfl))
      fun _ => .setSgiPending _ _ _
  refine h.drop hframe ?_ ?_ ?_ (fun m _ c _ => ?_) hsgi (hleft ▸ hok) fun m hm t src => ?_
  · rw [clearSgi]
    split <;> rfl
  · rw [clearSgi]
    split <;> rfl
  · intro h0 hz
    rw [hz] at hleft
    exact h0 (by simpa using hleft)
  · rw [clearSgi, ← hleft]
    split_ifs with h0
    · refine (pending_clear _ n (cpuBit cpu) m c).trans ?_
      rw [cpuBit_getLsbD_of_lt hcpu]
      simp [h0]
    · rw [decide_eq_false fun hall => h0 hall.2, Bool.not_false, Bool.and_true]
      rfl
  · have hbal := h.balanced m hm t src
    rw [GIC_NR_SGIS] at hn
    rw [writeb, if_pos (by omega)]
    simp only [bump, hsgi, Nat.add_sub_cancel_left]
    by_cases hmc : m = n ∧ t = cpu
    · obtain ⟨rfl, rfl⟩ := hmc
      rw [if_pos ⟨rfl, rfl⟩, hleft, andNot_getLsbD]
      cases hb : (s.sgiPending m t).getLsbD src <;> cases hv : value.getLsbD src <;>
        simp [hb] at hbal ⊢ <;> omega
    · have hout : (decide (m = n) && decide (t = cpu)) = false := by simpa using hmc
      rw [if_neg hmc, hout]
      simpa using hbal

/-- A write to the register that sends the interrupts. -/
theorem sgir_inv {value} (hcpu : cpu < GIC_NCPU) {out}
    (hrun : gicWriteSgir s cpu value = some out) :
    SgiInv cfg (out.state, log.writel s cpu 0xf00 value) := by
  obtain ⟨irq, hirq⟩ := @exists_eq _ ((value &&& 0x3ff).toNat)
  obtain ⟨mask, hmask⟩ := @exists_eq _ (sgiMask cpu value)
  rw [gicWriteSgir] at hrun
  split at hrun
  · exact absurd hrun (by simp)
  rw [← some.inj hrun, sgiLoop_eq _ _ _ (by simp), ← hirq, ← hmask]
  obtain ⟨u, hu⟩ : ∃ u, u = { s.setPending irq mask with
    sgiPending := sentTo (s.setPending irq mask).sgiPending irq mask cpu } := ⟨_, rfl⟩
  have hbit : ∀ n c, (u.irqState n).pending.getLsbD c =
      ((s.irqState n).pending.getLsbD c || (decide (n = irq) && mask.getLsbD c)) := by
    rw [hu]
    exact pending_set s irq mask
  have hsgi : ∀ n t, u.sgiPending n t =
      if n = irq ∧ mask.getLsbD t then s.sgiPending n t ||| cpuBit cpu else s.sgiPending n t := by
    rw [hu]
    exact fun n t => rfl
  have hset : GicFrame s (s.setPending irq mask) := .setIrqState rfl
  have hframe : GicFrame s u := by
    rw [hu]
    exact ⟨hset.numCpu, hset.numIrq, hset.revision, hset.mask, hset.level⟩
  have hsource : ∀ x : BitVec 8, x ||| cpuBit cpu ≠ 0 := by
    intro x h0
    have hself := congrArg (BitVec.getLsbD · cpu) h0
    simp [cpuBit_getLsbD_of_lt hcpu] at hself
  rw [← hu]
  refine h.raise hframe (by rw [hu]; rfl) (fun n c hb => ?_) (fun n hn c hc => ?_)
    fun n hn t src => ?_
  · rw [hbit, hb, Bool.true_or]
  · rw [hbit, hsgi]
    by_cases hnc : n = irq ∧ mask.getLsbD c
    · rw [if_pos hnc, decide_eq_true hnc.1, hnc.2, Bool.and_true, Bool.or_true]
      exact ⟨fun _ => hsource _, fun _ => rfl⟩
    · have hout : (decide (n = irq) && mask.getLsbD c) = false := by simpa using hnc
      rw [if_neg hnc, hout, Bool.or_false]
      exact h.consistent n hn c hc
  · have hbal := h.balanced n hn t src
    rw [writel, if_pos rfl, ← hirq, ← hmask]
    dsimp only [bump] at hbal ⊢
    rw [hsgi]
    by_cases hnt : n = irq ∧ mask.getLsbD t
    · rw [if_pos hnt, BitVec.getLsbD_or, cpuBit_getLsbD_of_lt hcpu, decide_eq_true hnt.1, hnt.2]
      cases hb : (s.sgiPending n t).getLsbD src <;> cases hv : decide (src = cpu) <;>
        simp [hb] at hbal ⊢ <;> omega
    · have hout : (decide (n = irq) && mask.getLsbD t) = false := by simpa using hnt
      rw [if_neg hnt, hout]
      simpa using hbal

end

/-- The source that an acknowledge takes. -/
theorem ctz32_source {x : BitVec 8} (hx : x ≠ 0) :
    ctz32 x.toNat < GIC_NCPU ∧ x.getLsbD (ctz32 x.toNat) := by
  have hlt : ctz32 x.toNat < GIC_NCPU := by
    by_contra hlt
    exact hx (ctz32_not_lt hlt)
  exact ⟨hlt, (ctz32_lt hlt).1⟩

/-- The fields of `GICC_IAR` for an SGI. -/
theorem iar_fields : ∀ n < GIC_NR_SGIS, ∀ src < GIC_NCPU,
    (n ||| ((src &&& 0x7) <<< 10)) &&& 0x3ff = n ∧ (n ||| ((src &&& 0x7) <<< 10)) >>> 10 = src := by
  decide

/-- What an acknowledge of an SGI does : it takes the source `src`. -/
structure SgiTaken (s : GICState) (n cpu v src : ℕ) (left : BitVec 8) (t : GICState) : Prop where
  source : src < GIC_NCPU ∧ (s.sgiPending n cpu).getLsbD src
  read : v = n ||| ((src &&& 0x7) <<< 10)
  left_eq : left = s.sgiPending n cpu &&& ~~~cpuBit src
  sgi : ∀ m c, t.sgiPending m c = if m = n ∧ c = cpu then left else s.sgiPending m c
  bit : ∀ m, ∀ c < GIC_NCPU, (t.irqState m).pending.getLsbD c =
    ((s.irqState m).pending.getLsbD c && !decide ((m = n ∧ (s.testModel n ∨ c = cpu)) ∧ left = 0))
  live : t.live = s.live
  current : t.currentPending = s.currentPending

theorem gicAcknowledgeSgi_taken {v : ℕ} {t : GICState} (hcpu : cpu < GIC_NCPU)
    (hack : gicAcknowledgeSgi s n cpu = some (v, t)) :
    SgiTaken s n cpu v (ctz32 (s.sgiPending n cpu).toNat)
      (s.sgiPending n cpu &&& ~~~cpuBit (ctz32 (s.sgiPending n cpu).toNat)) t := by
  rw [gicAcknowledgeSgi] at hack
  split at hack
  · exact absurd hack (by simp)
  rename_i hne
  obtain ⟨rfl, ht⟩ := Prod.mk.inj (some.inj hack)
  generalize hleft : s.sgiPending n cpu &&& ~~~cpuBit (ctz32 (s.sgiPending n cpu).toNat) = left
    at ht ⊢
  refine ⟨ctz32_source hne, rfl, hleft.symm, fun m c => ?_, fun m c hc => ?_, ?_, ?_⟩
  · rw [← update2_apply, ← ht]
    split <;> rfl
  · rw [← ht]
    by_cases h0 : left = 0
    · have hmask : (s.ackMask n cpu).getLsbD c = (s.testModel n || decide (c = cpu)) := by
        rw [ackMask]
        cases s.testModel n
        · simpa using cpuBit_getLsbD_of_lt hcpu c
        · have hall : ∀ c < GIC_NCPU, ALL_CPU_MASK.getLsbD c = true := by decide
          simpa using hall c hc
      rw [if_pos h0]
      refine (pending_clear _ n _ m c).trans ?_
      have hmask' : ((s.setSgiPending n cpu left).ackMask n cpu).getLsbD c =
          (s.testModel n || decide (c = cpu)) := hmask
      rw [hmask']
      simp [h0]
    · rw [if_neg h0, decide_eq_false fun hall => h0 hall.2, Bool.not_false, Bool.and_true]
      rfl
  · rw [← ht]
    split <;> rfl
  · rw [← ht]
    split <;> rfl

/-- An acknowledgement takes the pending bit of one sender. -/
theorem ackSgi_inv {v t} (h : SgiInv cfg (s, log)) (hn : n < GIC_NR_SGIS) (hcpu : cpu < GIC_NCPU)
    (hok : s.sgiPending n cpu &&& ~~~cpuBit (ctz32 (s.sgiPending n cpu).toNat) = 0 →
      UpdateReaches s cpu ∧ (s.testModel n → ∀ c < GIC_NCPU, c ≠ cpu → s.sgiPending n c = 0))
    (hack : gicAcknowledgeSgi s n cpu = some (v, t)) (hq : SgiQuiet t u) (hlive : u.live = t.live) :
    SgiInv cfg (gicUpdate u, log.acknowledge cpu v) := by
  have htaken := gicAcknowledgeSgi_taken hcpu hack
  generalize ctz32 (s.sgiPending n cpu).toNat = src at htaken hok
  generalize hleft : s.sgiPending n cpu &&& ~~~cpuBit src = left at htaken hok
  have hframe := (gicAcknowledgeSgi_frame hack).trans hq.toGicFrame
  refine h.drop hframe (hq.current.trans htaken.current) (hlive.trans htaken.live) ?_
    (fun m hm c hc => ?_) (fun m c => by rw [hq.sgi]; exact htaken.sgi m c)
    (fun _ h0 => (hok h0).1) fun m hm c src' => ?_
  · intro _ hz
    have hsource := htaken.source.2
    rw [hz] at hsource
    simp at hsource
  · -- with the 1:N model the other CPUs lose their bit too, but have no source
    rw [hq.pending m hm, htaken.bit m c hc]
    by_cases hother : m = n ∧ s.testModel n ∧ c ≠ cpu ∧ left = 0
    · obtain ⟨rfl, hmodel, hne, h0⟩ := hother
      have hzero := (hok h0).2 hmodel c hc hne
      have hoff : (s.irqState m).pending.getLsbD c = false := by
        by_contra hb
        exact (h.consistent m hm c hc).mp (by simpa using hb) hzero
      rw [hoff, Bool.false_and, Bool.false_and]
    · congr 2
      refine decide_eq_decide.mpr ?_
      tauto
  · have hbal := h.balanced m hm c src'
    obtain ⟨hid, hsource⟩ := iar_fields n hn src htaken.source.1
    rw [← htaken.read] at hid hsource
    rw [acknowledge, hid, hsource, hq.sgi, htaken.sgi]
    dsimp only [bump] at hbal ⊢
    rw [decide_eq_true hm, Bool.true_and]
    by_cases hmc : m = n ∧ c = cpu
    · obtain ⟨rfl, rfl⟩ := hmc
      rw [if_pos ⟨rfl, rfl⟩, ← hleft, andNot_getLsbD, cpuBit_getLsbD_of_lt htaken.source.1]
      by_cases hs : src' = src
      · subst hs
        simp [htaken.source.2] at hbal ⊢
        omega
      · simpa [hs] using hbal
    · have hout : (decide (m = n) && decide (c = cpu)) = false := by simpa using hmc
      rw [if_neg hmc, hout]
      simpa using hbal

theorem gicDistWriteb_inv (h : SgiInv cfg (s, log)) (hcpu : cpu < GIC_NCPU) {offset}
    (hok : SgiByteOk s cpu offset value) :
    SgiInv cfg ((gicDistWriteb s cpu offset value).state, log.writeb s cpu offset value) := by
  have hlog : offset < 0xf10 ∨ 0xf30 ≤ offset → log.writeb s cpu offset value = log := by
    intro hoff
    rw [writeb, if_neg (by omega), if_neg (by omega)]
  have heffect := gicDistWriteb_effect h.wf.legacy h.wf.low cpu offset value
  generalize gicDistWriteb s cpu offset value = out at heffect
  cases heffect with
  | stay hoff =>
    rw [hlog hoff]
    exact h
  | quiet hoff hq =>
    rw [hlog (.inl hoff)]
    exact (h.quiet hq).gicUpdate
  | clear hn hoff =>
    subst hoff
    exact clearSgi_inv h hn hcpu (hok.clear _ hn rfl)
  | raise hn hoff =>
    subst hoff
    exact raiseSgi_inv h hn hcpu (hok.raise _ hn rfl)

theorem gicDistWritew_inv (h : SgiInv cfg (s, log)) (hcpu : cpu < GIC_NCPU) {offset
    value} (hok : SgiWordOk s cpu offset value) :
    SgiInv cfg ((gicDistWritew s cpu offset value).state, log.writew s cpu offset value) :=
  gicDistWriteb_inv (gicDistWriteb_inv h hcpu hok.1) hcpu hok.2

/-- An interrupt that is no SGI is not logged. -/
theorem SgiLog.acknowledge_other {v} (hv : v ≤ 1023) (hge : GIC_NR_SGIS ≤ v) :
    log.acknowledge cpu v = log := by
  have hid : v &&& 0x3ff = v := by
    rw [show 0x3ff = 2 ^ 10 - 1 from rfl, Nat.and_two_pow_sub_one_eq_mod]
    exact Nat.mod_eq_of_lt (by omega)
  rw [acknowledge, hid]
  congr 1
  funext n t src
  by_cases hn : n < GIC_NR_SGIS
  · have hne : n ≠ v := by omega
    simp [bump, hne]
  · simp [bump, hn]

theorem gicAcknowledgeIrq_inv (h : SgiInv cfg (s, log)) (hcpu : cpu < cfg.numCpu)
    (hok : SgiAckOk s cpu) {v out} (hack : gicAcknowledgeIrq s cpu = some (v, out)) :
    SgiInv cfg (out.state, log.acknowledge cpu v) := by
  have hcpu' : cpu < GIC_NCPU := hcpu.trans_le cfg.numCpu_le
  cases gicAcknowledgeIrq_effect h.wf.legacy hack with
  | stay =>
    rw [acknowledge_other le_rfl (by decide)]
    exact h
  | quiet hge hq =>
    rw [acknowledge_other (h.current cpu (h.wf.numCpu ▸ hcpu)).le hge]
    exact (h.quiet hq).gicUpdate
  | sgi hcur hn hprio htake hq hlive =>
    exact ackSgi_inv (h.quiet (setLastActive_quiet _ _ _)) hn hcpu' (hok _ hn hcur.symm hprio)
      htake hq hlive

theorem gicAcknowledgeSgi_isSome (h : s.sgiPending n cpu ≠ 0) :
    (gicAcknowledgeSgi s n cpu).isSome := by
  rw [gicAcknowledgeSgi]
  rw [if_neg h]
  rfl

/-- The assertion of `gic_acknowledge_irq` holds. -/
theorem SgiInv.acknowledge_isSome (h : SgiInv cfg (s, log)) (hcpu : cpu < cfg.numCpu) :
    (gicAcknowledgeIrq s cpu).isSome := by
  rw [gicAcknowledgeIrq]
  dsimp only
  split
  · rfl
  have hlegacy : (s.setLastActive (s.currentPending cpu) cpu (s.runningIrq cpu)).legacy = false :=
    h.wf.legacy
  rw [hlegacy]
  by_cases hsgi : s.currentPending cpu < GIC_NR_SGIS
  · have hbit := (h.current cpu (h.wf.numCpu ▸ hcpu)).pending hsgi
    have hsource := (h.consistent _ hsgi cpu (hcpu.trans_le cfg.numCpu_le)).mp hbit
    rw [if_neg (by simp [hsgi]), isSome_map]
    exact gicAcknowledgeSgi_isSome hsource
  · rw [if_pos (by simp [hsgi])]
    rfl

end Access

/-! ## Runs -/

/-- Every access keeps the books. -/
theorem sgiStep_inv {cfg r r' op} (h : SgiInv cfg r)
    (hop : op.Wired r.1) (hok : SgiOk r.1 op) (hs : sgiStep op r = some r') : SgiInv cfg r' := by
  obtain ⟨s, log⟩ := r
  obtain ⟨⟨v, out⟩, hrun, rfl⟩ := map_eq_some_iff.mp hs
  have hncpu : ∀ {cpu}, cpu < s.numCpu → cpu < GIC_NCPU :=
    fun hlt => (h.wf.numCpu ▸ hlt).trans_le cfg.numCpu_le
  have hmap : ∀ {o : Option GicOutcome}, o.map (0, ·) = some (v, out) → o = some out := by
    intro o ho
    obtain ⟨out', ho', hr⟩ := map_eq_some_iff.mp ho
    rw [ho', (Prod.mk.inj hr).2]
  have hstay : ∀ {n : ℕ}, some (n, GicOutcome.stay s) = some (v, out) →
      SgiInv cfg (out.state, log) := by
    intro n hr
    rw [← (Prod.mk.inj (some.inj hr)).2]
    exact h
  cases op with
  | setIrq line level =>
    rcases gicSetIrq_quiet (hmap hrun) with rfl | ⟨u, rfl, hq⟩
    · exact h
    · exact (h.quiet hq).gicUpdate
  | distReadb cpu offset | distReadw cpu offset | distReadl cpu offset => exact hstay hrun
  | distWriteb cpu offset value =>
    rw [← (Prod.mk.inj (some.inj hrun)).2]
    exact gicDistWriteb_inv h (hncpu hop) hok
  | distWritew cpu offset value =>
    rw [← (Prod.mk.inj (some.inj hrun)).2]
    exact gicDistWritew_inv h (hncpu hop) hok
  | distWritel cpu offset value =>
    have hout := hmap hrun
    rw [gicDistWritel] at hout
    dsimp only [record, SgiOk] at hok ⊢
    by_cases hoff : offset = 0xf00
    · subst hoff
      exact sgir_inv h (hncpu hop) hout
    · rw [if_neg hoff] at hout hok
      rw [writel, if_neg hoff, ← some.inj hout]
      exact gicDistWritew_inv (gicDistWritew_inv h (hncpu hop) hok.1) (hncpu hop) hok.2
  | cpuRead cpu offset =>
    rcases gicCpuRead_cases hrun with ⟨hoff, rfl⟩ | ⟨rfl, hack⟩
    · rw [record, if_neg hoff]
      exact h
    · exact gicAcknowledgeIrq_inv h (h.wf.numCpu ▸ hop) (hok rfl) hack
  | cpuWrite cpu offset value =>
    obtain ⟨u, hq, rfl | rfl⟩ := gicCpuWrite_quiet h.wf.legacy (hmap hrun)
    · exact h.quiet hq
    · exact (h.quiet hq).gicUpdate

/-- Nothing was sent yet. -/
def sgiInit (cfg : GicConfig) : GICState × SgiLog :=
  (armGicCommonReset cfg, ⟨fun _ _ _ => 0, fun _ _ _ => 0, fun _ _ _ => 0⟩)

theorem sgiInv_init (cfg : GicConfig) : SgiInv cfg (sgiInit cfg) := by
  refine ⟨gicWf_reset cfg, fun n hn c hc => ?_, fun c hc => ?_, fun n hn t src => ?_⟩
  · rw [GIC_NR_SGIS] at hn
    simp [sgiInit, armGicCommonReset, hn]
  · have hcur : (sgiInit cfg).1.currentPending c = 1023 := if_pos hc
    exact ⟨hcur.le, fun hn => absurd (hcur ▸ hn) (by decide)⟩
  · simp [sgiInit, armGicCommonReset]

/-- The bookkeeping of the SGIs is consistent, in every state that accesses of the kind
`SgiOk` lead to. -/
theorem sgi_bookkeeping {cfg : GicConfig} {r : GICState × SgiLog}
    (h : Reach sgiStep (fun r op => op.Wired r.1 ∧ SgiOk r.1 op) (sgiInit cfg) r) :
    (∀ n < 16, ∀ c < 8, (r.1.irqState n).pending.getLsbD c = true ↔ r.1.sgiPending n c ≠ 0) ∧
    (∀ c < cfg.numCpu, (gicAcknowledgeIrq r.1 c).isSome) ∧
    ∀ n < 16, ∀ t src, r.2.sent n t src =
      r.2.acked n t src + r.2.cleared n t src + ((r.1.sgiPending n t).getLsbD src).toNat := by
  have hinv : SgiInv cfg r :=
    Reach.invariant (sgiInv_init cfg) (fun r op r' hr hop hs => sgiStep_inv hr hop.1 hop.2 hs) h
  exact ⟨hinv.consistent, fun c hc => hinv.acknowledge_isSome hc, hinv.balanced⟩

/-- After CPU 0 has sent SGI 3 to itself. -/
theorem sgi_bookkeeping_sent : ∃ r,
    sgiStep (.distWritel 0 0xf00 0x02000003) (sgiInit gicUniprocessor) = some r ∧
      ((r.1.irqState 3).pending.getLsbD 0 = true ↔ r.1.sgiPending 3 0 ≠ 0) ∧
      (gicAcknowledgeIrq r.1 0).isSome ∧
      r.2.sent 3 0 0 =
        r.2.acked 3 0 0 + r.2.cleared 3 0 0 + ((r.1.sgiPending 3 0).getLsbD 0).toNat := by
  obtain ⟨r, hr⟩ : ∃ r, sgiStep (.distWritel 0 0xf00 0x02000003) (sgiInit gicUniprocessor) =
      some r := ⟨_, rfl⟩
  have hreach : Reach sgiStep (fun r op => op.Wired r.1 ∧ SgiOk r.1 op)
      (sgiInit gicUniprocessor) r := by
    refine Reach.refl.tail (i := GicOp.distWritel 0 0xf00 0x02000003) ⟨?_, ?_⟩ hr
    · exact Nat.one_pos
    · exact Or.inl (by decide)
  obtain ⟨hcons, hack, hlog⟩ := sgi_bookkeeping hreach
  exact ⟨r, hr, hcons 3 (by decide) 0 (by decide), hack 0 Nat.one_pos, hlog 3 (by decide) 0 0⟩

/-- A zero byte for `GICD_SPENDSGIR0`, and the interfaces on. -/
def sgiWithoutSource : List GicOp :=
  [.distWriteb 0 0xf20 0, .distWriteb 0 0 1, .cpuWrite 0 0 1, .cpuWrite 0 4 0xff]

/-- SGI 0 is pending without a source, and the acknowledge fails its assertion. -/
theorem sgi_bookkeeping_fail : ∃ r,
    sgiWithoutSource.foldlM (fun r op => sgiStep op r) (sgiInit gicUniprocessor) = some r ∧
      (r.1.irqState 0).pending.getLsbD 0 = true ∧ r.1.sgiPending 0 0 = 0 ∧
      gicAcknowledgeIrq r.1 0 = none := by
  have hrun : (sgiWithoutSource.foldlM (fun r op => sgiStep op r) (sgiInit gicUniprocessor)).map
      (fun r => ((r.1.irqState 0).pending.getLsbD 0, r.1.sgiPending 0 0,
        (gicAcknowledgeIrq r.1 0).isNone)) = some (true, 0, true) := by
    decide +kernel
  obtain ⟨r, hr, hout⟩ := map_eq_some_iff.mp hrun
  obtain ⟨hbit, hrest⟩ := Prod.mk.inj hout
  obtain ⟨hsgi, hnone⟩ := Prod.mk.inj hrest
  exact ⟨r, hr, hbit, hsgi, isNone_iff_eq_none.mp hnone⟩

end QemuArm
