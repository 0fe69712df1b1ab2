import QemuArm.ArmGicUpdate

/-!
# Exception numbers of the NVIC

`hw/intc/armv7m_nvic.c` takes exceptions by their hardware numbers and calls the interrupt
controller with its own, which are larger by 16 from the first external interrupt on.

`nvic_reported` : in every run without software triggers, an exception is acknowledged, active
and completed under the number that it was pended under, and `VECTPENDING` shows this number
exactly for the internal exceptions.
-/

namespace QemuArm

open List Option

variable (s : GICState)

def gicSetPendingPrivate (cpu irq : ℕ) : GicOutcome :=
  if gicTestPending s irq (cpuBit cpu) then .stay s else .update (s.setPending irq (cpuBit cpu))

/-- The number of an exception in the controller. -/
def nvicIrq (e : ℕ) : ℕ := if 16 ≤ e then e + 16 else e

/-- `none` stands for the `hw_error`. -/
def armv7mNvicAcknowledgeIrq : Option (ℕ × GicOutcome) := do
  let (irq, out) ← gicAcknowledgeIrq s 0
  if irq = 1023 then none else some (if 32 ≤ irq then irq - 16 else irq, out)

def armv7mNvicCompleteIrq (e : ℕ) : Option GicOutcome := gicCompleteIrq s 0 (nvicIrq e)

/-- `ICSR.VECTACTIVE`, bits 0 to 9 of register 0xd04. -/
def vectActive : ℕ :=
  if s.runningIrq 0 = 1023 then 0
  else if 32 ≤ s.runningIrq 0 then s.runningIrq 0 - 16 else s.runningIrq 0

/-- `ICSR.VECTPENDING`, bits 12 to 21. -/
def vectPending : ℕ := if s.currentPending 0 ≠ 1023 then s.currentPending 0 else 0

/-- The controller with its number of external interrupts (`num_irq`, which the controller's own
number of interrupts exceeds by 32), and what was pended : the interrupt, and the number of the
exception. -/
structure NvicState where
  gic : GICState
  numIrq : ℕ
  pended : List (ℕ × ℕ)

namespace NvicState

variable (s : NvicState) (value : BitVec 32)

def pend (irq e : ℕ) : NvicState :=
  { s with gic := (gicSetPendingPrivate s.gic 0 irq).state, pended := (irq, e) :: s.pended }

def armv7mNvicSetPending (e : ℕ) : NvicState := s.pend (nvicIrq e) e

/-- The bits of register 0xd04 that pend an exception and clear it. -/
def writeIcsrBits (set clear e : ℕ) : NvicState :=
  if value.getLsbD set then s.armv7mNvicSetPending e
  else if value.getLsbD clear then
    { s with gic := gicUpdate (s.gic.setIrqState e fun st => { st with pending := 0 }) }
  else s

/-- No bit clears the NMI. -/
def writeIcsr : NvicState :=
  ((s.writeIcsrBits value 31 31 2).writeIcsrBits value 28 27 14).writeIcsrBits value 26 25 15

/-- Register 0xf00 takes the number of an external interrupt. They start at exception 16. -/
def writeStir : NvicState :=
  let irq := (value &&& 0x1ff).toNat
  if irq < s.numIrq then s.pend irq (16 + irq) else s

end NvicState

inductive NvicOp where
  | setPending (e : ℕ)
  | acknowledgeIrq
  | completeIrq (e : ℕ)
  | writeIcsr (value : BitVec 32)
  | writeStir (value : BitVec 32)
  /-- anything else that happens to the controller, through lines and other registers -/
  | other (gic : GICState)

/-- An exception without an entry in `irq_state` is not pended. -/
def nvicStep : NvicOp → NvicState → Option NvicState
  | .setPending e, s => if nvicIrq e < GIC_MAXIRQ then some (s.armv7mNvicSetPending e) else none
  | .acknowledgeIrq, s => (armv7mNvicAcknowledgeIrq s.gic).map fun r => { s with gic := r.2.state }
  | .completeIrq e, s => (armv7mNvicCompleteIrq s.gic e).map fun out => { s with gic := out.state }
  | .writeIcsr value, s => some (s.writeIcsr value)
  | .writeStir value, s => some (s.writeStir value)
  | .other gic, s => some { s with gic }

/-- A write to register 0xf00 triggers no interrupt. -/
def NvicOp.Untriggered (s : NvicState) : NvicOp → Prop
  | writeStir value => s.numIrq ≤ (value &&& 0x1ff).toNat
  | _ => True

/-- Interrupt `irq` of the controller goes by the number `e`, but for `VECTPENDING`. -/
structure Reported (irq e : ℕ) : Prop where
  pending : s.currentPending 0 = irq → (vectPending s = e ↔ e < 16)
  acknowledge : s.currentPending 0 = irq → (armv7mNvicAcknowledgeIrq s).map Prod.fst =
    if s.getPriority irq 0 < s.runningPriority 0 then some e else none
  active : s.runningIrq 0 = irq → vectActive s = e
  complete : s.runningIrq 0 = irq → irq < s.numIrq →
    (armv7mNvicCompleteIrq s e).map (·.state.runningIrq 0) = some (s.lastActive irq 0)

/-- Every exception was pended at its own interrupt. -/
def NvicState.Numbered (s : NvicState) : Prop :=
  ∀ p ∈ s.pended, p.1 = nvicIrq p.2 ∧ p.1 < GIC_MAXIRQ

section

variable {s s' : NvicState} {e : ℕ} (h : s.Numbered)
include h

theorem NvicState.Numbered.setPending (he : nvicIrq e < GIC_MAXIRQ) :
    (s.armv7mNvicSetPending e).Numbered := forall_mem_cons.2 ⟨⟨rfl, he⟩, h⟩

theorem NvicState.Numbered.writeIcsrBits {value set clear} (he : nvicIrq e < GIC_MAXIRQ) :
    (s.writeIcsrBits value set clear e).Numbered := by
  unfold NvicState.writeIcsrBits
  split_ifs
  exacts [h.setPending he, h, h]

theorem NvicState.Numbered.step {op} (hok : op.Untriggered s) (hs : nvicStep op s = some s') :
    s'.Numbered := by
  cases op with
  | setPending e =>
    obtain ⟨he, hs⟩ := ite_none_right_eq_some.1 hs
    exact some.inj hs ▸ h.setPending he
  | acknowledgeIrq | completeIrq e =>
    obtain ⟨_, -, rfl⟩ := map_eq_some_iff.1 hs
    exact h
  | writeIcsr value =>
    cases hs
    exact ((h.writeIcsrBits (by decide)).writeIcsrBits (by decide)).writeIcsrBits (by decide)
  | writeStir value =>
    cases hs
    rw [writeStir, if_neg (Nat.not_lt.2 hok)]
    exact h
  | other gic =>
    cases hs
    exact h

end

variable {s}

/-- The interrupt that runs ends, and the one that it preempted runs again. -/
theorem gicCompleteIrq_running {irq} (h : s.runningIrq 0 = irq) (hlt : irq < s.numIrq)
    (hne : irq ≠ 1023) :
    (gicCompleteIrq s 0 irq).map (·.state.runningIrq 0) = some (s.lastActive irq 0) := by
  subst h
  rw [gicCompleteIrq, if_neg (not_le.2 hlt), if_neg hne]
  dsimp only
  generalize hs' : (if stillRaised s 0 (s.runningIrq 0) then
    s.setPending (s.runningIrq 0) (cpuBit 0) else s) = s'
  obtain ⟨hrun, hlast⟩ : s'.runningIrq = s.runningIrq ∧ s'.lastActive = s.lastActive := by
    rw [← hs']
    split <;> exact ⟨rfl, rfl⟩
  rw [hrun, hlast, if_neg (not_not.2 rfl), Option.map_some]
  obtain ⟨pending, lines, hframe⟩ := gicUpdate_frame { s' with
    runningIrq := Function.update s'.runningIrq 0 (s.lastActive (s.runningIrq 0) 0)
    runningPriority := Function.update s'.runningPriority 0
      (if s.lastActive (s.runningIrq 0) 0 = 1023 then 0x100
        else s'.getPriority (s.lastActive (s.runningIrq 0) 0) 0) }
  rw [gicSetRunningIrq, GicOutcome.state, hframe]
  simp

theorem reported_nvicIrq {e} (hrev : s.revision = REV_NVIC) (he : nvicIrq e < GIC_MAXIRQ) :
    Reported s (nvicIrq e) e := by
  have hne : nvicIrq e ≠ 1023 := (he.trans (by decide)).ne
  have hback : (if 32 ≤ nvicIrq e then nvicIrq e - 16 else nvicIrq e) = e := by
    unfold nvicIrq
    split_ifs <;> omega
  refine ⟨fun h => ?_, fun h => ?_, fun h => ?_, fun h hlt => ?_⟩
  · rw [vectPending, h, if_pos hne, nvicIrq]
    split_ifs <;> omega
  · have hlegacy : (s.setLastActive (nvicIrq e) 0 (s.runningIrq 0)).legacy = true := by
      rw [GICState.legacy, show (s.setLastActive _ 0 _).revision = REV_NVIC from hrev]
      rfl
    by_cases hp : s.getPriority (nvicIrq e) 0 < s.runningPriority 0
    · simp [armv7mNvicAcknowledgeIrq, gicAcknowledgeIrq, h, hne, not_le.2 hp, hp, hlegacy, hback]
    · simp [armv7mNvicAcknowledgeIrq, gicAcknowledgeIrq, h, not_lt.1 hp]
  · rw [vectActive, h, if_neg hne, hback]
  · rw [armv7mNvicCompleteIrq, gicCompleteIrq_running h hlt hne]

/-- In every run without software triggers each exception keeps its number. -/
theorem nvic_reported {gic : GICState} {numIrq : ℕ} {s : NvicState} {irq e : ℕ}
    (h : Reach nvicStep NvicOp.Untriggered ⟨gic, numIrq, []⟩ s) (hrev : s.gic.revision = REV_NVIC)
    (hpend : (irq, e) ∈ s.pended) : Reported s.gic irq e := by
  have h0 : NvicState.Numbered ⟨gic, numIrq, []⟩ := nofun
  obtain ⟨rfl, he⟩ : irq = nvicIrq e ∧ irq < GIC_MAXIRQ :=
    h.invariant h0 (fun _ _ _ h => h.step) _ hpend
  exact reported_nvicIrq hrev he

/-- A new device after `armv7m_nvic_reset`. -/
def armv7mNvicReset : NvicState where
  gic := { armGicCommonReset gicUniprocessor with
    enabled := true, cpuEnabled cpu := cpu = 0, priorityMask cpu := if cpu = 0 then 0x100 else 0
    revision := REV_NVIC }
  numIrq := 32
  pended := []

/-- The first external interrupt is enabled. -/
def enableFirst : NvicOp := .other (gicDistWriteb armv7mNvicReset.gic 0 0x100 1).state

/-- The exception of the first external interrupt, pended and acknowledged. -/
theorem nvic_reported_external :
    ∃ s, [enableFirst, .setPending 16, .acknowledgeIrq].foldlM (fun s op => nvicStep op s)
        armv7mNvicReset = some s ∧ vectActive s.gic = 16 ∧ Reported s.gic 32 16 := by
  have hrun : ([enableFirst, .setPending 16, .acknowledgeIrq].foldlM (fun s op => nvicStep op s)
      armv7mNvicReset).map (fun s => decide (vectActive s.gic = 16 ∧ s.gic.revision = REV_NVIC ∧
        (32, 16) ∈ s.pended)) = some true := by decide +kernel
  obtain ⟨s, hs, hout⟩ := map_eq_some_iff.1 hrun
  obtain ⟨hactive, hrev, hpend⟩ := of_decide_eq_true hout
  refine ⟨s, hs, hactive, nvic_reported (Reach.foldlM _ (fun op hop _ => ?_) .refl hs) hrev hpend⟩
  fin_cases hop <;> trivial

/-- Exception 16, with interrupt 32 enabled, shows as 32. Triggered by software it is acknowledged
as 0. -/
theorem nvic_reported_fail :
    (∃ s, [enableFirst, .setPending 16].foldlM (fun s op => nvicStep op s) armv7mNvicReset =
        some s ∧
      (32, 16) ∈ s.pended ∧ s.gic.currentPending 0 = 32 ∧ vectPending s.gic = 32) ∧
    ∃ s, nvicStep (.writeStir 0) armv7mNvicReset = some s ∧ (0, 16) ∈ s.pended ∧
      s.gic.currentPending 0 = 0 ∧ (armv7mNvicAcknowledgeIrq s.gic).map Prod.fst = some 0 :=
  ⟨⟨_, rfl, by decide +kernel⟩, ⟨_, rfl, by decide +kernel⟩⟩

end QemuArm
