import QemuArm.Reach

/-!
# The ARM interrupt controller

`hw/intc/arm_gic.c` : the distributor, the CPU interfaces and the input lines. A bit mask
over the `GIC_NCPU` interfaces is a `BitVec 8`, an array is a function. An operation ends
either in `gic_update` or without it (`GicOutcome`). It is `none` where the source aborts
(an assertion fails), writes outside of an array, or never returns.
-/

namespace QemuArm

open Function

/-! ## State -/

def GIC_MAXIRQ : ℕ := 1020

def GIC_INTERNAL : ℕ := 32

def GIC_NR_SGIS : ℕ := 16

def GIC_NCPU : ℕ := 8

def ALL_CPU_MASK : BitVec 8 := 0xff#8

def REV_11MPCORE : ℕ := 0

def REV_NVIC : ℕ := 0xffffffff

/-- `gic_irq_state`. -/
structure GicIrqState where
  enabled : BitVec 8
  pending : BitVec 8
  active : BitVec 8
  level : BitVec 8
  /-- true : 1:N, false : N:N -/
  model : Bool
  edgeTrigger : Bool
  deriving DecidableEq

structure GICState where
  /-- the level last put on the output line of a CPU -/
  parentIrq : ℕ → Bool
  enabled : Bool
  cpuEnabled : ℕ → Bool
  irqState : ℕ → GicIrqState
  irqTarget : ℕ → BitVec 8
  priority1 : ℕ → ℕ → BitVec 8
  priority2 : ℕ → BitVec 8
  lastActive : ℕ → ℕ → ℕ
  /-- the sources that made an SGI pending, by SGI and target -/
  sgiPending : ℕ → ℕ → BitVec 8
  priorityMask : ℕ → ℕ
  runningIrq : ℕ → ℕ
  runningPriority : ℕ → ℕ
  currentPending : ℕ → ℕ
  bpr : ℕ → ℕ
  abpr : ℕ → ℕ
  apr : ℕ → ℕ → ℕ
  numCpu : ℕ
  numIrq : ℕ
  revision : ℕ

/-- Assign one element of a two-dimensional array. -/
def update2 {α : Type} (a : ℕ → ℕ → α) (i j : ℕ) (v : α) : ℕ → ℕ → α :=
  update a i (update (a i) j v)

/-- The mask of one CPU. -/
def cpuBit (cpu : ℕ) : BitVec 8 := BitVec.twoPow 8 cpu

namespace GICState

variable (s : GICState) (irq : ℕ) (cm : BitVec 8)

/-- The revisions that the source treats before the architecture specifications. -/
def legacy : Bool := s.revision == REV_11MPCORE || s.revision == REV_NVIC

def baseIrq : ℕ := if s.revision = REV_NVIC then 32 else 0

@[simp] def setIrqState (f : GicIrqState → GicIrqState) : GICState :=
  { s with irqState := update s.irqState irq (f (s.irqState irq)) }

def setEnabled : GICState :=
  s.setIrqState irq fun e => { e with enabled := e.enabled ||| cm }

def clearEnabled : GICState :=
  s.setIrqState irq fun e => { e with enabled := e.enabled &&& ~~~cm }

def testEnabled : Bool := (s.irqState irq).enabled &&& cm != 0

def setPending : GICState :=
  s.setIrqState irq fun e => { e with pending := e.pending ||| cm }

def clearPending : GICState :=
  s.setIrqState irq fun e => { e with pending := e.pending &&& ~~~cm }

def testActive : Bool := (s.irqState irq).active &&& cm != 0

def setModel (model : Bool) : GICState :=
  s.setIrqState irq fun e => { e with model := model }

def testModel : Bool := (s.irqState irq).model

def setLevel : GICState :=
  s.setIrqState irq fun e => { e with level := e.level ||| cm }

def clearLevel : GICState :=
  s.setIrqState irq fun e => { e with level := e.level &&& ~~~cm }

def testLevel : Bool := (s.irqState irq).level &&& cm != 0

def setEdgeTrigger (edge : Bool) : GICState :=
  s.setIrqState irq fun e => { e with edgeTrigger := edge }

def testEdgeTrigger : Bool := (s.irqState irq).edgeTrigger

def getPriority (cpu : ℕ) : ℕ :=
  if irq < GIC_INTERNAL then (s.priority1 irq cpu).toNat
  else (s.priority2 (irq - GIC_INTERNAL)).toNat

@[simp] def setSgiPending (cpu : ℕ) (sources : BitVec 8) : GICState :=
  { s with sgiPending := update2 s.sgiPending irq cpu sources }

def setLastActive (cpu active : ℕ) : GICState :=
  { s with lastActive := update2 s.lastActive irq cpu active }

end GICState

variable (s : GICState)

/-- A level-triggered interrupt is pending while its line is high, or once software has
written `GICD_ISPENDR`. -/
def gicTestPending (irq : ℕ) (cm : BitVec 8) : Bool :=
  if s.legacy then (s.irqState irq).pending &&& cm != 0
  else ((s.irqState irq).pending &&& cm != 0) || (!s.testEdgeTrigger irq && s.testLevel irq cm)

/-! ## The outputs -/

/-- `best_prio` and `best_irq` after the first `n` interrupts. -/
def gicBest (s : GICState) (cpu : ℕ) : ℕ → ℕ × ℕ
  | 0 => (0x100, 1023)
  | irq + 1 =>
    if s.testEnabled irq (cpuBit cpu) && gicTestPending s irq (cpuBit cpu) &&
        decide (s.getPriority irq cpu < (gicBest s cpu irq).1) then
      (s.getPriority irq cpu, irq)
    else gicBest s cpu irq

@[simp] def GICState.setOutput (cpu pending : ℕ) (level : Bool) : GICState :=
  { s with
    currentPending := update s.currentPending cpu pending
    parentIrq := update s.parentIrq cpu level }

/-- The loop of `gic_update` for `n` CPUs from `cpu`. An interface that is off ends it. -/
def gicUpdateLoop : ℕ → ℕ → GICState → GICState
  | 0, _, s => s
  | n + 1, cpu, s =>
    if !s.enabled || !s.cpuEnabled cpu then s.setOutput cpu 1023 false
    else
      let best := gicBest s cpu s.numIrq
      gicUpdateLoop n (cpu + 1) <|
        if best.1 < s.priorityMask cpu then
          s.setOutput cpu best.2 (decide (best.1 < s.runningPriority cpu))
        else s.setOutput cpu 1023 false

def gicUpdate : GICState := gicUpdateLoop s.numCpu 0 s

/-- How an operation ends : in `gic_update`, called on `u`, or with the state `s`. -/
inductive GicOutcome where
  | update (u : GICState)
  | stay (s : GICState)

def GicOutcome.state : GicOutcome → GICState
  | update u => gicUpdate u
  | stay s => s

/-! ## Input lines -/

def gicSetIrq11mpcore (irq : ℕ) (level : ℤ) (cm target : BitVec 8) : GICState :=
  if level ≠ 0 then
    let s := s.setLevel irq cm
    if s.testEdgeTrigger irq || s.testEnabled irq cm then s.setPending irq target else s
  else s.clearLevel irq cm

def gicSetIrqGeneric (irq : ℕ) (level : ℤ) (cm target : BitVec 8) : GICState :=
  if level ≠ 0 then
    let s := s.setLevel irq cm
    if s.testEdgeTrigger irq then s.setPending irq target else s
  else s.clearLevel irq cm

/-- The interrupt, the mask and the targets of an input line : first the shared interrupts,
then the private ones of each CPU. -/
def gicLine (irq : ℕ) : ℕ × BitVec 8 × BitVec 8 :=
  if irq < s.numIrq - GIC_INTERNAL then
    (irq + GIC_INTERNAL, ALL_CPU_MASK, s.irqTarget (irq + GIC_INTERNAL))
  else
    let irq := irq - (s.numIrq - GIC_INTERNAL)
    (irq % GIC_INTERNAL, cpuBit (irq / GIC_INTERNAL), cpuBit (irq / GIC_INTERNAL))

def gicSetIrq (line : ℕ) (level : ℤ) : Option GicOutcome :=
  let (irq, cm, target) := gicLine s line
  if irq < GIC_NR_SGIS then none
  else if level = (s.testLevel irq cm).toInt then some (.stay s)
  else if s.legacy then some (.update (gicSetIrq11mpcore s irq level cm target))
  else some (.update (gicSetIrqGeneric s irq level cm target))

/-! ## Acknowledging and completing -/

def gicSetRunningIrq (cpu irq : ℕ) : GicOutcome :=
  .update { s with
    runningIrq := update s.runningIrq cpu irq
    runningPriority := update s.runningPriority cpu
      (if irq = 1023 then 0x100 else s.getPriority irq cpu) }

def ctz32 (v : ℕ) : ℕ := ((List.range 32).find? v.testBit).getD 32

/-- The CPUs that an acknowledged interrupt stops being pending for. -/
def GICState.ackMask (irq cpu : ℕ) : BitVec 8 :=
  if s.testModel irq then ALL_CPU_MASK else cpuBit cpu

/-- Take one source off an SGI. -/
def gicAcknowledgeSgi (irq cpu : ℕ) : Option (ℕ × GICState) :=
  let src := ctz32 (s.sgiPending irq cpu).toNat
  let left := s.sgiPending irq cpu &&& ~~~cpuBit src
  if s.sgiPending irq cpu = 0 then none
  else
    let s := s.setSgiPending irq cpu left
    some (irq ||| ((src &&& 0x7) <<< 10),
      if left = 0 then s.clearPending irq (s.ackMask irq cpu) else s)

def gicAcknowledgeIrq (cpu : ℕ) : Option (ℕ × GicOutcome) :=
  let irq := s.currentPending cpu
  if irq = 1023 ∨ s.runningPriority cpu ≤ s.getPriority irq cpu then some (1023, .stay s)
  else
    let s := s.setLastActive irq cpu (s.runningIrq cpu)
    if s.legacy || !decide (irq < GIC_NR_SGIS) then
      some (irq, gicSetRunningIrq (s.clearPending irq (s.ackMask irq cpu)) cpu irq)
    else (gicAcknowledgeSgi s irq cpu).map fun r => (r.1, gicSetRunningIrq r.2 cpu irq)

def gicSetPriority (cpu irq : ℕ) (val : BitVec 8) : GICState :=
  if irq < GIC_INTERNAL then
    { s with priority1 := update2 s.priority1 irq cpu val }
  else { s with priority2 := update s.priority2 (irq - GIC_INTERNAL) val }

/-- The search of `gic_complete_irq` for the interrupt that preempted `irq`. There are
`GIC_MAXIRQ` interrupts, so that a search that takes longer goes round and never ends. -/
def completeLoop (cpu irq : ℕ) : ℕ → ℕ → GICState → Option GICState
  | 0, _, _ => none
  | fuel + 1, tmp, s =>
    if s.lastActive tmp cpu = 1023 then some s
    else if s.lastActive tmp cpu = irq then
      some (s.setLastActive tmp cpu (s.lastActive irq cpu))
    else completeLoop cpu irq fuel (s.lastActive tmp cpu) s

/-- Whether the legacy revisions mark a completed interrupt pending again. -/
def stillRaised (cpu irq : ℕ) : Bool :=
  s.legacy && !s.testEdgeTrigger irq && s.testEnabled irq (cpuBit cpu) &&
    s.testLevel irq (cpuBit cpu) && (s.irqTarget irq &&& cpuBit cpu != 0)

def gicCompleteIrq (cpu irq : ℕ) : Option GicOutcome :=
  if s.numIrq ≤ irq then some (.stay s)
  else if s.runningIrq cpu = 1023 then some (.stay s)
  else
    let update := stillRaised s cpu irq
    let s := if update then s.setPending irq (cpuBit cpu) else s
    if irq ≠ s.runningIrq cpu then
      (completeLoop cpu irq (GIC_MAXIRQ + 1) (s.runningIrq cpu) s).map fun s =>
        if update then .update s else .stay s
    else some (gicSetRunningIrq s cpu (s.lastActive (s.runningIrq cpu) cpu))

/-! ## The distributor -/

def gicId : List ℕ := [0x90, 0x13, 0x04, 0x00, 0x0d, 0xf0, 0x05, 0xb1]

/-- The byte with the bits `i` of `n` that pass the test, `step` bits apart. -/
def gatherBits (n step : ℕ) (test : ℕ → Bool) : ℕ :=
  (List.range n).foldl (fun res i => if test i then res ||| (1 <<< (i * step)) else res) 0

variable (cpu offset : ℕ)

/-- Reads outside of the registers give 0. -/
def gicDistReadb : ℕ :=
  let cm := cpuBit cpu
  let mask (irq : ℕ) := if irq < GIC_INTERNAL then cm else ALL_CPU_MASK
  if offset < 0x100 then
    if offset = 0 then s.enabled.toNat
    else if offset = 4 then (s.numIrq / 32 - 1) ||| ((s.numCpu - 1) <<< 5)
    else 0
  else if offset < 0x200 then
    let irq := (if offset < 0x180 then (offset - 0x100) * 8 else (offset - 0x180) * 8) + s.baseIrq
    if s.numIrq ≤ irq then 0 else gatherBits 8 1 fun i => s.testEnabled (irq + i) cm
  else if offset < 0x300 then
    let irq := (if offset < 0x280 then (offset - 0x200) * 8 else (offset - 0x280) * 8) + s.baseIrq
    if s.numIrq ≤ irq then 0 else gatherBits 8 1 fun i => gicTestPending s (irq + i) (mask irq)
  else if offset < 0x400 then
    let irq := (offset - 0x300) * 8 + s.baseIrq
    if s.numIrq ≤ irq then 0 else gatherBits 8 1 fun i => s.testActive (irq + i) (mask irq)
  else if offset < 0x800 then
    let irq := offset - 0x400 + s.baseIrq
    if s.numIrq ≤ irq then 0 else s.getPriority irq cpu
  else if offset < 0xc00 then
    if s.numCpu = 1 ∧ s.revision ≠ REV_11MPCORE then 0
    else
      let irq := offset - 0x800 + s.baseIrq
      if s.numIrq ≤ irq then 0
      else if 29 ≤ irq ∧ irq ≤ 31 then cm.toNat
      else (s.irqTarget irq).toNat
  else if offset < 0xf00 then
    -- the write side multiplies by four
    let irq := (offset - 0xc00) * 2 + s.baseIrq
    if s.numIrq ≤ irq then 0
    else gatherBits 4 2 (fun i => s.testModel (irq + i)) |||
      (gatherBits 4 2 (fun i => s.testEdgeTrigger (irq + i)) <<< 1)
  else if offset < 0xf10 then 0
  else if offset < 0xf30 then
    if s.legacy then 0
    else (s.sgiPending (if offset < 0xf20 then offset - 0xf10 else offset - 0xf20) cpu).toNat
  else if offset < 0xfe0 then 0
  else if offset % 4 ≠ 0 then 0
  else gicId.getD ((offset - 0xfe0) / 4) 0

def gicDistReadw : ℕ :=
  gicDistReadb s cpu offset ||| (gicDistReadb s cpu (offset + 1) <<< 8)

def gicDistReadl : ℕ :=
  gicDistReadw s cpu offset ||| (gicDistReadw s cpu (offset + 2) <<< 16)

/-- Run `f` for every set bit among the first `n`. -/
def forBits (n : ℕ) (value : BitVec 8) (f : GICState → ℕ → GICState) (s : GICState) : GICState :=
  (List.range n).foldl (fun s i => if value.getLsbD i then f s i else s) s

/-- Set Enable : one interrupt. -/
def enableIrq (cpu irq : ℕ) (s : GICState) (i : ℕ) : GICState :=
  let mask := if irq < GIC_INTERNAL then cpuBit cpu else s.irqTarget (irq + i)
  let cm := if irq < GIC_INTERNAL then cpuBit cpu else ALL_CPU_MASK
  let s := s.setEnabled (irq + i) cm
  -- a raised level-triggered interrupt becomes pending
  if s.testLevel (irq + i) mask && !s.testEdgeTrigger (irq + i) then s.setPending (irq + i) mask
  else s

/-- Clear Enable : one interrupt. -/
def disableIrq (cpu irq : ℕ) (s : GICState) (i : ℕ) : GICState :=
  s.clearEnabled (irq + i) (if irq < GIC_INTERNAL then cpuBit cpu else ALL_CPU_MASK)

/-- Configuration : one interrupt. -/
def configureIrq (irq : ℕ) (value : BitVec 8) (s : GICState) (i : ℕ) : GICState :=
  (s.setModel (irq + i) (value.getLsbD (2 * i))).setEdgeTrigger (irq + i)
    (value.getLsbD (2 * i + 1))

/-- `irq_target`, read-only for the private interrupts. -/
def gicSetTarget (irq : ℕ) (value : BitVec 8) : GICState :=
  let value := if irq < 29 then 0 else if irq < GIC_INTERNAL then ALL_CPU_MASK else value
  { s with irqTarget := update s.irqTarget irq (value &&& ALL_CPU_MASK) }

/-- `GICD_CPENDSGIRn`. -/
def clearSgi (cpu irq : ℕ) (value : BitVec 8) : GICState :=
  let left := s.sgiPending irq cpu &&& ~~~value
  let s := s.setSgiPending irq cpu left
  if left = 0 then s.clearPending irq (cpuBit cpu) else s

/-- `GICD_SPENDSGIRn`. -/
def raiseSgi (cpu irq : ℕ) (value : BitVec 8) : GICState :=
  (s.setPending irq (cpuBit cpu)).setSgiPending irq cpu (s.sgiPending irq cpu ||| value)

def gicDistWriteb (value : BitVec 8) : GicOutcome :=
  let checked (irq : ℕ) (f : ℕ → GICState) : GicOutcome :=
    if s.numIrq ≤ irq then .stay s else .update (f irq)
  if offset < 0x100 then
    if offset = 0 then .update { s with enabled := value.getLsbD 0 }
    else if offset < 4 ∨ 0x80 ≤ offset then .update s
    else .stay s
  else if offset < 0x180 then
    checked ((offset - 0x100) * 8 + s.baseIrq) fun irq =>
      forBits 8 (if irq < GIC_NR_SGIS then 0xff else value) (enableIrq cpu irq) s
  else if offset < 0x200 then
    checked ((offset - 0x180) * 8 + s.baseIrq) fun irq =>
      forBits 8 (if irq < GIC_NR_SGIS then 0 else value) (disableIrq cpu irq) s
  else if offset < 0x280 then
    checked ((offset - 0x200) * 8 + s.baseIrq) fun irq =>
      forBits 8 (if irq < GIC_NR_SGIS then 0 else value)
        (fun s i => s.setPending (irq + i) (s.irqTarget (irq + i))) s
  else if offset < 0x300 then
    checked ((offset - 0x280) * 8 + s.baseIrq) fun irq =>
      forBits 8 (if irq < GIC_NR_SGIS then 0 else value)
        (fun s i => s.clearPending (irq + i) ALL_CPU_MASK) s
  else if offset < 0x400 then .stay s
  else if offset < 0x800 then
    checked (offset - 0x400 + s.baseIrq) fun irq => gicSetPriority s cpu irq value
  else if offset < 0xc00 then
    if s.numCpu ≠ 1 ∨ s.revision = REV_11MPCORE then
      checked (offset - 0x800 + s.baseIrq) fun irq => gicSetTarget s irq value
    else .update s
  else if offset < 0xf00 then
    checked ((offset - 0xc00) * 4 + s.baseIrq) fun irq =>
      (List.range 4).foldl
        (configureIrq irq (if irq < GIC_INTERNAL then value ||| 0xaa else value)) s
  else if offset < 0xf10 then .stay s
  else if offset < 0xf20 then
    if s.legacy then .stay s else .update (clearSgi s cpu (offset - 0xf10) value)
  else if offset < 0xf30 then
    if s.legacy then .stay s else .update (raiseSgi s cpu (offset - 0xf20) value)
  else .stay s

def gicDistWritew (value : BitVec 16) : GicOutcome :=
  gicDistWriteb (gicDistWriteb s cpu offset (value.setWidth 8)).state cpu (offset + 1)
    ((value >>> 8).setWidth 8)

/-- The targets of a write to `GICD_SGIR`. -/
def sgiMask (cpu : ℕ) (value : BitVec 32) : BitVec 8 :=
  match ((value >>> 24) &&& 3).toNat with
  | 0 => (value >>> 16).setWidth 8 &&& ALL_CPU_MASK
  | 1 => ALL_CPU_MASK ^^^ cpuBit cpu
  | 2 => cpuBit cpu
  | _ => ALL_CPU_MASK

/-- The loop over the targets. A round clears the lowest of the `GIC_NCPU` bits of `mask`,
so that `GIC_NCPU` rounds are enough. -/
def sgiLoop (cpu irq : ℕ) : ℕ → BitVec 8 → GICState → GICState
  | 0, _, s => s
  | n + 1, mask, s =>
    let target := ctz32 mask.toNat
    if target < GIC_NCPU then
      sgiLoop cpu irq n (mask &&& ~~~cpuBit target)
        (s.setSgiPending irq target (s.sgiPending irq target ||| cpuBit cpu))
    else s

/-- The interrupt number of `GICD_SGIR` is not checked : it indexes `irq_state`, and for
every target `sgi_pending`. -/
def gicWriteSgir (cpu : ℕ) (value : BitVec 32) : Option GicOutcome :=
  let irq := (value &&& 0x3ff).toNat
  let mask := sgiMask cpu value
  if GIC_MAXIRQ ≤ irq ∨ GIC_NR_SGIS ≤ irq ∧ mask ≠ 0 then none
  else some (.update (sgiLoop cpu irq GIC_NCPU mask (s.setPending irq mask)))

def gicDistWritel (value : BitVec 32) : Option GicOutcome :=
  if offset = 0xf00 then gicWriteSgir s cpu value
  else some (gicDistWritew (gicDistWritew s cpu offset (value.setWidth 16)).state cpu (offset + 2)
    ((value >>> 16).setWidth 16))

/-! ## The CPU interfaces -/

def gicCpuRead : Option (ℕ × GicOutcome) :=
  match offset with
  | 0x00 => some ((s.cpuEnabled cpu).toNat, .stay s)
  | 0x04 => some (s.priorityMask cpu, .stay s)
  | 0x08 => some (s.bpr cpu, .stay s)
  | 0x0c => gicAcknowledgeIrq s cpu
  | 0x14 => some (s.runningPriority cpu, .stay s)
  | 0x18 => some (s.currentPending cpu, .stay s)
  | 0x1c => some (s.abpr cpu, .stay s)
  | offset =>
    if offset ∈ [0xd0, 0xd4, 0xd8, 0xdc] then some (s.apr ((offset - 0xd0) / 4) cpu, .stay s)
    else some (0, .stay s)

def gicCpuWrite (value : BitVec 32) : Option GicOutcome :=
  match offset with
  | 0x00 =>
    some (.update { s with cpuEnabled := update s.cpuEnabled cpu (value.getLsbD 0) })
  | 0x04 => some (.update { s with
      priorityMask := update s.priorityMask cpu (value &&& 0xff).toNat })
  | 0x08 => some (.update { s with bpr := update s.bpr cpu (value &&& 0x7).toNat })
  | 0x10 => gicCompleteIrq s cpu (value &&& 0x3ff).toNat
  | 0x1c => some (.update (if 2 ≤ s.revision then
      { s with abpr := update s.abpr cpu (value &&& 0x7).toNat } else s))
  | offset =>
    if offset ∈ [0xd0, 0xd4, 0xd8, 0xdc] then some (.update s) else some (.stay s)

/-! ## The device -/

/-- The properties of a device that `arm_gic_common_realize` accepts, of a revision of the
architecture specification. -/
structure GicConfig where
  numCpu : ℕ
  numIrq : ℕ
  revision : ℕ
  numCpu_le : numCpu ≤ GIC_NCPU
  numIrq_le : numIrq ≤ GIC_MAXIRQ
  le_numIrq : 32 ≤ numIrq
  numIrq_mod : numIrq % 32 = 0
  revision_mem : revision = 1 ∨ revision = 2

/-- A new device after `arm_gic_common_reset`. -/
def armGicCommonReset (cfg : GicConfig) : GICState where
  parentIrq _ := false
  enabled := false
  cpuEnabled _ := false
  irqState irq :=
    if irq < 16 then ⟨ALL_CPU_MASK, 0, 0, 0, false, true⟩ else ⟨0, 0, 0, 0, false, false⟩
  irqTarget irq := if cfg.numCpu = 1 ∧ irq < GIC_MAXIRQ then 1 else 0
  priority1 _ _ := 0
  priority2 _ := 0
  lastActive _ _ := 0
  sgiPending _ _ := 0
  priorityMask _ := 0
  runningIrq cpu := if cpu < cfg.numCpu then 1023 else 0
  runningPriority cpu := if cpu < cfg.numCpu then 0x100 else 0
  currentPending cpu := if cpu < cfg.numCpu then 1023 else 0
  bpr _ := 0
  abpr _ := 0
  apr _ _ := 0
  numCpu := cfg.numCpu
  numIrq := cfg.numIrq
  revision := cfg.revision

/-- What the guest and the board can do. An access names the CPU that makes it, or whose
interface it is for. -/
inductive GicOp where
  | setIrq (line : ℕ) (level : ℤ)
  | distReadb (cpu offset : ℕ)
  | distReadw (cpu offset : ℕ)
  | distReadl (cpu offset : ℕ)
  | distWriteb (cpu offset : ℕ) (value : BitVec 8)
  | distWritew (cpu offset : ℕ) (value : BitVec 16)
  | distWritel (cpu offset : ℕ) (value : BitVec 32)
  | cpuRead (cpu offset : ℕ)
  | cpuWrite (cpu offset : ℕ) (value : BitVec 32)
  deriving DecidableEq

/-- What the guest reads, and how the operation ends. -/
def GicOp.run : GicOp → Option (ℕ × GicOutcome)
  | setIrq line level => (gicSetIrq s line level).map (0, ·)
  | distReadb cpu offset => some (gicDistReadb s cpu offset, .stay s)
  | distReadw cpu offset => some (gicDistReadw s cpu offset, .stay s)
  | distReadl cpu offset => some (gicDistReadl s cpu offset, .stay s)
  | distWriteb cpu offset value => some (0, gicDistWriteb s cpu offset value)
  | distWritew cpu offset value => some (0, gicDistWritew s cpu offset value)
  | distWritel cpu offset value => (gicDistWritel s cpu offset value).map (0, ·)
  | cpuRead cpu offset => gicCpuRead s cpu offset
  | cpuWrite cpu offset value => (gicCpuWrite s cpu offset value).map (0, ·)

/-- An access comes from one of the CPUs, and a line is one that the device has. -/
def GicOp.Wired : GicOp → Prop
  | setIrq line _ => line < s.numIrq - GIC_INTERNAL + GIC_INTERNAL * s.numCpu
  | distReadb cpu _ | distReadw cpu _ | distReadl cpu _ => cpu < s.numCpu
  | distWriteb cpu _ _ | distWritew cpu _ _ | distWritel cpu _ _ => cpu < s.numCpu
  | cpuRead cpu _ | cpuWrite cpu _ _ => cpu < s.numCpu

def gicStep (op : GicOp) (s : GICState) : Option GICState :=
  (op.run s).map fun r => r.2.state

end QemuArm
