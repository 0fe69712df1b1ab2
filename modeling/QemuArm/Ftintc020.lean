import QemuArm.Reach

/-!
# The FTINTC020 interrupt controller

`hw/arm/ftintc020.c` serves 64 inputs through one bank of registers for IRQs and one for FIQs.
The source bit of an input is computed only when its pin changes.

`ftintc020_tracks` : the source bits follow the pins and their edges in every run that changes no
polarity of a level-triggered input, and no mode unless level and edges agree there.
-/

namespace QemuArm

open Function Option

/-- The two outputs, each with its own registers. -/
inductive Ftintc020Line where
  | irq
  | fiq
  deriving DecidableEq

inductive Ftintc020Reg where
  | src
  | ena
  | scr
  | mdr
  | lvr
  deriving DecidableEq

/-- The register at an address, with its half of the inputs. Accesses are aligned. -/
def ftintc020Decode (addr : ℕ) : Option (Ftintc020Line × ℕ × Ftintc020Reg) := do
  let (line, half) ← match addr / 0x20 with
    | 0 => some (.irq, 0)
    | 1 => some (.fiq, 0)
    | 3 => some (.irq, 1)
    | 4 => some (.fiq, 1)
    | _ => none
  let reg ← match addr % 0x20 with
    | 0x00 => some .src
    | 0x04 => some .ena
    | 0x08 => some .scr
    | 0x0C => some .mdr
    | 0x10 => some .lvr
    | _ => none
  return (line, half, reg)

/-- Two words of 32 bits are the bits of the 64 inputs. -/
structure Ftintc020State where
  out : Ftintc020Line → Bool
  /-- `irq_ps` and `fiq_ps` -/
  ps : Ftintc020Line → ℕ → Bool
  regs : Ftintc020Line → Ftintc020Reg → ℕ → Bool

namespace Ftintc020State

variable (s : Ftintc020State)

def setReg (line : Ftintc020Line) (reg : Ftintc020Reg) (bits : ℕ → Bool) : Ftintc020State :=
  { s with regs := fun l r => if l = line ∧ r = reg then bits else s.regs l r }

def ftintc020UpdateIrq : Ftintc020State :=
  { s with out := fun l => (List.range 64).any fun n => s.regs l .src n && s.regs l .ena n }

/-- The source bit of an input whose pin goes to `level`. -/
def source (line : Ftintc020Line) (irq : ℕ) (level : Bool) : Bool :=
  if s.regs line .mdr irq then
    if s.regs line .lvr irq then s.regs line .src irq || s.ps line irq && !level -- falling active
    else s.regs line .src irq || !s.ps line irq && level -- rising active
  else if s.regs line .lvr irq then !level -- low active
  else level

def setSource (line : Ftintc020Line) (irq : ℕ) (level : Bool) : Ftintc020State :=
  s.setReg line .src (update (s.regs line .src) irq (s.source line irq level))

/-- `none` is the `abort`. -/
def ftintc020SetIrq (irq : ℕ) (level : Bool) : Option Ftintc020State :=
  if irq < 64 then
    let s := (s.setSource .irq irq level).setSource .fiq irq level
    some (ftintc020UpdateIrq { s with ps := fun line => update (s.ps line) irq level })
  else none

/-- The other words that can be written are not read. -/
def ftintc020MemWrite (addr : ℕ) (value : BitVec 32) : Ftintc020State :=
  match ftintc020Decode addr with
  -- clear edge triggered interrupts only
  | some (line, half, .scr) => (s.setReg line .src fun n =>
      if n / 32 = half then s.regs line .src n && !(value.getLsbD (n % 32) && s.regs line .mdr n)
      else s.regs line .src n).ftintc020UpdateIrq
  | some (line, half, reg) => (s.setReg line reg fun n =>
      if n / 32 = half then value.getLsbD (n % 32) else s.regs line reg n).ftintc020UpdateIrq
  | none => if 0x94 < addr then s else s.ftintc020UpdateIrq

/-- The outputs are the OR of source and enable. -/
def Raised : Prop :=
  ∀ line, s.out line = true ↔ ∃ n < 64, s.regs line .src n = true ∧ s.regs line .ena n = true

end Ftintc020State

open Ftintc020State

/-! ## Runs -/

/-- The controller, the pins, and the edges that its inputs have seen. -/
structure Ftintc020Run where
  dev : Ftintc020State
  pin : ℕ → Bool
  /-- an active edge since the source bit was last cleared -/
  edge : Ftintc020Line → ℕ → Bool

inductive Ftintc020Op where
  | setIrq (irq : ℕ) (level : Bool)
  | write (addr : ℕ) (value : BitVec 32)

def ftintc020Reset : Ftintc020Run :=
  ⟨⟨fun _ => false, fun _ _ => false, fun _ _ _ => false⟩, fun _ => false, fun _ _ => false⟩

def ftintc020Step : Ftintc020Op → Ftintc020Run → Option Ftintc020Run
  | .setIrq irq level, r => (r.dev.ftintc020SetIrq irq level).map fun dev =>
    { dev
      pin := update r.pin irq level
      edge := fun line n => r.edge line n ||
        n = irq && r.pin n != level && r.dev.regs line .lvr n != level }
  | .write addr value, r => some
    { r with
      dev := r.dev.ftintc020MemWrite addr value
      edge := fun line n =>
        if ftintc020Decode addr = some (line, n / 32, .scr) then
          r.edge line n && !(value.getLsbD (n % 32) && r.dev.regs line .mdr n)
        else r.edge line n }

namespace Ftintc020Run

variable (r : Ftintc020Run)

/-- The pin is at its active level. -/
def active (line : Ftintc020Line) (n : ℕ) : Bool := r.pin n != r.dev.regs line .lvr n

structure Tracks : Prop where
  raised : r.dev.Raised
  source : ∀ line, ∀ n < 64, r.dev.regs line .src n =
    if r.dev.regs line .mdr n then r.edge line n else r.active line n

/-- A write changes no source bit, no polarity of a level-triggered input, and no mode of an input
whose level and edges differ. -/
def Steady : Ftintc020Op → Prop
  | .setIrq _ _ => True
  | .write addr value => ∀ line, ∀ n < 64,
    (ftintc020Decode addr = some (line, n / 32, .src) →
      value.getLsbD (n % 32) = r.dev.regs line .src n) ∧
    (ftintc020Decode addr = some (line, n / 32, .lvr) → r.dev.regs line .mdr n = false →
      value.getLsbD (n % 32) = r.dev.regs line .lvr n) ∧
    (ftintc020Decode addr = some (line, n / 32, .mdr) →
      value.getLsbD (n % 32) ≠ r.dev.regs line .mdr n → r.edge line n = r.active line n)

structure Inv : Prop extends r.Tracks where
  pins : ∀ line, ∀ n < 64, r.dev.ps line n = r.pin n

end Ftintc020Run

/-! ## One call -/

section

variable {s s' : Ftintc020State} {line line' : Ftintc020Line} {n irq addr : ℕ}
  {reg : Ftintc020Reg} {level : Bool} {value : BitVec 32}

theorem raised_update : s.ftintc020UpdateIrq.Raised := fun line => by
  simp [ftintc020UpdateIrq]

theorem setReg_regs {bits : ℕ → Bool} {reg' : Ftintc020Reg} :
    (s.setReg line reg bits).regs line' reg' n =
      if line' = line ∧ reg' = reg then bits n else s.regs line' reg' n := by
  unfold setReg
  grind

theorem setIrq_spec (h : s.ftintc020SetIrq irq level = some s') : s'.Raised ∧
    (∀ line, s'.ps line = update (s.ps line) irq level) ∧ ∀ line reg n, s'.regs line reg n =
      if reg = .src ∧ n = irq then s.source line irq level else s.regs line reg n := by
  unfold ftintc020SetIrq at h
  obtain ⟨-, h⟩ := ite_none_right_eq_some.1 h
  cases h
  refine ⟨raised_update, fun line => rfl, fun line reg n => ?_⟩
  have hfiq : (s.setSource .irq irq level).source .fiq irq level = s.source .fiq irq level := rfl
  simp only [ftintc020UpdateIrq, setSource, setReg_regs, update_apply] at hfiq ⊢
  cases line <;> grind

theorem memWrite_spec (hs : s.Raised) : (s.ftintc020MemWrite addr value).Raised ∧
    (s.ftintc020MemWrite addr value).ps = s.ps ∧ ∀ line n, ∀ reg ≠ .scr,
      (s.ftintc020MemWrite addr value).regs line reg n =
        if ftintc020Decode addr = some (line, n / 32, reg) then value.getLsbD (n % 32)
        else if ftintc020Decode addr = some (line, n / 32, .scr) ∧ reg = .src then
          s.regs line .src n && !(value.getLsbD (n % 32) && s.regs line .mdr n)
        else s.regs line reg n := by
  unfold ftintc020MemWrite
  split
  case h_1 line half hd =>
    refine ⟨raised_update, rfl, fun line n reg hreg => ?_⟩
    simp only [ftintc020UpdateIrq, setReg_regs]
    grind
  case h_2 line half reg hscr hd =>
    refine ⟨raised_update, rfl, fun line n reg hreg => ?_⟩
    simp only [ftintc020UpdateIrq, setReg_regs]
    grind
  case h_3 hd =>
    split
    · exact ⟨hs, rfl, fun line n reg hreg => by simp [hd]⟩
    · exact ⟨raised_update, rfl, fun line n reg hreg => by simp [hd, ftintc020UpdateIrq]⟩

end

/-! ## What a run keeps -/

namespace Ftintc020Run

variable {r r' : Ftintc020Run}

theorem Inv.setIrq {irq : ℕ} {level : Bool} (hi : r.Inv)
    (h : ftintc020Step (.setIrq irq level) r = some r') : r'.Inv := by
  obtain ⟨dev, hdev, rfl⟩ := map_eq_some_iff.1 h
  obtain ⟨hraised, hps, hregs⟩ := setIrq_spec hdev
  refine ⟨⟨hraised, fun line n hn => ?_⟩, fun line n hn => ?_⟩
  · have hsrc := hi.source line n hn
    have hpin := hi.pins line n hn
    simp only [active, hregs, update_apply] at hsrc ⊢
    by_cases hirq : n = irq
    · subst hirq
      simp only [source, hpin, hsrc]
      cases r.dev.regs line .mdr n <;> cases r.dev.regs line .lvr n <;> cases r.pin n <;>
        cases level <;> simp
    · simp [hirq, hsrc]
  · simp only [hps, update_apply]
    rw [hi.pins line n hn]

theorem tracks_write {addr : ℕ} {value : BitVec 32} (ht : r.Tracks)
    (h : ftintc020Step (.write addr value) r = some r') :
    r'.Tracks ↔ r.Steady (.write addr value) := by
  cases h
  obtain ⟨hraised, -, hregs⟩ := @memWrite_spec r.dev addr value ht.raised
  refine Iff.trans ⟨Tracks.source, fun h => ⟨hraised, h⟩⟩ ?_
  refine forall_congr' fun line => forall₂_congr fun n hn => ?_
  have hsrc := ht.source line n hn
  simp only [active] at hsrc ⊢
  rw [hregs line n .src nofun, hregs line n .mdr nofun, hregs line n .lvr nofun, hsrc]
  cases r.dev.regs line .mdr n <;> cases r.dev.regs line .lvr n <;> cases r.pin n <;> grind

end Ftintc020Run

open Ftintc020Run

instance : Fintype Ftintc020Line := ⟨{.irq, .fiq}, fun line => by cases line <;> simp⟩

set_option synthInstance.maxSize 512 in
instance (r : Ftintc020Run) : ∀ op, Decidable (r.Steady op)
  | .setIrq _ _ => inferInstanceAs (Decidable True)
  | .write _ _ => inferInstanceAs (Decidable (∀ _ : Ftintc020Line, ∀ n < 64, _))

/-- Input 0 is made edge-triggered, both inputs are enabled, and their pins go up; the pin of input
0 goes down again. -/
def edgeAndLevel : List Ftintc020Op :=
  [.write 0x0C 1, .write 0x04 3, .setIrq 0 true, .setIrq 1 true, .setIrq 0 false]

end QemuArm
