import QemuArm.Dispatch
import QemuArm.Reach

/-!
# Offsets of RAM blocks

`exec.c` : `find_ram_offset` puts a block behind another one, into the smallest gap that is large
enough. In every run of allocations and frees the blocks do not overlap, and the function gives up
only when no gap is large enough (`ramOffsets_disjoint`).
-/

namespace QemuArm

/-- The place of a block in the space of `ram_addr_t`. -/
structure RamRange where
  offset : ℕ
  length : ℕ

/-- `RAM_ADDR_MAX`. -/
def ramAddrMax : ℕ := 2 ^ 64 - 1

variable (blocks : List RamRange)

/-- The inner loop of `find_ram_offset`. -/
def nextOffset (e : ℕ) : ℕ :=
  blocks.foldl (fun next b => if e ≤ b.offset then min next b.offset else next) ramAddrMax

/-- `end` and `next - end` for a block. -/
def gapBehind (b : RamRange) : ℕ × ℕ :=
  let e := (b.offset + b.length) % 2 ^ 64
  (e, (nextOffset blocks e + 2 ^ 64 - e) % 2 ^ 64)

/-- `find_ram_offset`; none when it aborts. -/
def findRamOffset (size : ℕ) : Option ℕ :=
  if blocks.isEmpty then some 0
  else
    let best := blocks.foldl (fun best b =>
      let gap := gapBehind blocks b
      if size ≤ gap.2 ∧ gap.2 < best.2 then gap else best) (ramAddrMax, ramAddrMax)
    if best.1 = ramAddrMax then none else some best.1

inductive RamListOp where
  | alloc (size : Hwaddr)
  | free (addr : ℕ)

/-- `qemu_ram_alloc_from_ptr`, which keeps the list sorted from the biggest to the smallest block,
and `qemu_ram_free`. -/
def ramStep (t : TargetPage) : RamListOp → List RamRange → Option (List RamRange)
  | .alloc size, blocks =>
    let size := (t.align size).toNat
    if size = 0 then none
    else (findRamOffset blocks size).map fun offset =>
      blocks.orderedInsert (fun new b => b.length < new.length) ⟨offset, size⟩
  | .free addr, blocks => some (blocks.eraseP fun b => b.offset = addr)

def RamRange.Apart (a b : RamRange) : Prop :=
  a.offset + a.length ≤ b.offset ∨ b.offset + b.length ≤ a.offset

/-- Behind the block there are `g` addresses without a block, and no more. -/
def GapAfter (b : RamRange) (g : ℕ) : Prop :=
  (∀ b' ∈ blocks, b'.Apart ⟨b.offset + b.length, g⟩) ∧
    (b.offset + b.length + g = ramAddrMax ∨ ∃ b' ∈ blocks, b'.offset = b.offset + b.length + g)

instance : Std.Symm RamRange.Apart := ⟨fun _ _ => Or.symm⟩

structure RamApart (blocks : List RamRange) : Prop where
  apart : blocks.Pairwise RamRange.Apart
  bound : ∀ b ∈ blocks, 0 < b.length ∧ b.offset + b.length ≤ ramAddrMax

variable {blocks : List RamRange} {b : RamRange} {size g : ℕ}

/-- A loop that remembers the best candidate so far. -/
theorem foldl_best {ι β : Type} (key : β → ℕ) (p : ι → Prop) [DecidablePred p] (val : ι → β) :
    ∀ (l : List ι) (acc : β), ∃ r, r = l.foldl
        (fun acc i => if p i ∧ key (val i) < key acc then val i else acc) acc ∧
      key r ≤ key acc ∧ (∀ i ∈ l, p i → key r ≤ key (val i)) ∧ (r = acc ∨ ∃ i ∈ l, p i ∧ r = val i)
  | [], acc => ⟨acc, rfl, le_rfl, nofun, .inl rfl⟩
  | i :: l, acc => by
    obtain ⟨r, hr, hle, hall, hmem⟩ :=
      foldl_best key p val l (if p i ∧ key (val i) < key acc then val i else acc)
    refine ⟨r, hr, ?_⟩
    split_ifs at hle hmem <;> grind

theorem nextOffset_spec (e : ℕ) : nextOffset blocks e ≤ ramAddrMax ∧
    (∀ b ∈ blocks, e ≤ b.offset → nextOffset blocks e ≤ b.offset) ∧
    (nextOffset blocks e = ramAddrMax ∨
      ∃ b ∈ blocks, e ≤ b.offset ∧ nextOffset blocks e = b.offset) := by
  obtain ⟨r, hr, h⟩ := foldl_best id (fun b : RamRange => e ≤ b.offset) RamRange.offset blocks
    ramAddrMax
  have hbody : nextOffset blocks e = r := by
    rw [hr, nextOffset]
    congr 1
    funext next b
    simp only [id]
    split_ifs <;> omega
  rwa [hbody]

/-- What the loops compute for a block is the gap behind it. -/
theorem RamApart.gapBehind_eq (h : RamApart blocks) (hb : b ∈ blocks) :
    (gapBehind blocks b).1 = b.offset + b.length ∧
      (GapAfter blocks b g ↔ g = (gapBehind blocks b).2) := by
  obtain ⟨hle, hmin, hmem⟩ := @nextOffset_spec blocks (b.offset + b.length)
  have hmax : ramAddrMax < 2 ^ 64 := by decide
  have hbound := h.bound b hb
  have hge : b.offset + b.length ≤ nextOffset blocks (b.offset + b.length) := by
    rcases hmem with heq | ⟨b', -, hb', heq⟩ <;> omega
  have hgap : gapBehind blocks b = (b.offset + b.length,
      nextOffset blocks (b.offset + b.length) - (b.offset + b.length)) := by
    unfold gapBehind
    rw [Nat.mod_eq_of_lt (by omega)]
    ext <;> simp only []
    omega
  rw [hgap]
  refine ⟨rfl, fun ⟨hapart, hend⟩ => ?_, ?_⟩
  · have hto : nextOffset blocks (b.offset + b.length) ≤ b.offset + b.length + g := by
      rcases hend with hend | ⟨b', hb', heq⟩
      · omega
      · exact (hmin b' hb' (by omega)).trans heq.le
    have hfrom : b.offset + b.length + g ≤ nextOffset blocks (b.offset + b.length) := by
      rcases hmem with heq | ⟨b', hb', hle', heq⟩
      · rcases hend with hend | ⟨b', hb', heq'⟩
        · omega
        · have := h.bound b' hb'
          omega
      · have := h.bound b' hb'
        rcases hapart b' hb' with hap | hap <;> simp only [] at hap <;> omega
    omega
  · rintro rfl
    refine ⟨fun b' hb' => ?_, ?_⟩
    · by_cases heq : b' = b
      · exact .inl (by rw [heq])
      · have hap := h.apart.forall hb' hb heq
        by_cases hlt : b.offset + b.length ≤ b'.offset
        · have := hmin b' hb' hlt
          exact .inr (by simp only []; omega)
        · exact .inl (by simp only [RamRange.Apart] at hap ⊢; omega)
    · simp only [Nat.add_sub_cancel' hge]
      exact hmem.imp id fun ⟨b', hb', _, heq⟩ => ⟨b', hb', heq.symm⟩

theorem RamApart.gap_le (h : RamApart blocks) (hb : b ∈ blocks) :
    b.offset + b.length + (gapBehind blocks b).2 ≤ ramAddrMax := by
  rcases ((h.gapBehind_eq hb).2.mpr rfl).2 with heq | ⟨b', hb', heq⟩
  · exact heq.le
  · have := h.bound b' hb'
    omega

/-- The gap found is the smallest one that is large enough. -/
theorem RamApart.findRamOffset_spec (h : RamApart blocks) (hne : blocks ≠ []) (hsize : 0 < size) :
    match findRamOffset blocks size with
    | none => ∀ b ∈ blocks, (gapBehind blocks b).2 < size
    | some off => ∃ b ∈ blocks, off = b.offset + b.length ∧ size ≤ (gapBehind blocks b).2 ∧
        ∀ b' ∈ blocks, size ≤ (gapBehind blocks b').2 →
          (gapBehind blocks b).2 ≤ (gapBehind blocks b').2 := by
  obtain ⟨r, hr, -, hall, hmem⟩ := foldl_best Prod.snd
    (fun b => size ≤ (gapBehind blocks b).2) (gapBehind blocks) blocks (ramAddrMax, ramAddrMax)
  unfold findRamOffset
  simp only [List.isEmpty_iff, hne, if_false, ← hr]
  rcases hmem with rfl | ⟨b, hb, hfit, rfl⟩
  · intro b hb
    have := h.bound b hb
    have := h.gap_le hb
    by_contra hlt
    have := hall b hb (by omega)
    omega
  · have := h.gap_le hb
    rw [(h.gapBehind_eq hb (g := 0)).1, if_neg (by omega)]
    exact ⟨b, hb, rfl, hfit, hall⟩

theorem RamApart.step {t op blocks'}
    (h : RamApart blocks) (hs : ramStep t op blocks = some blocks') : RamApart blocks' := by
  cases op with
  | free addr =>
    cases hs
    exact ⟨h.apart.sublist List.eraseP_sublist,
      fun b hb => h.bound b (List.eraseP_sublist.subset hb)⟩
  | alloc size =>
    simp only [ramStep, Option.ite_none_left_eq_some, Option.map_eq_some_iff] at hs
    obtain ⟨hpos, off, hoff, rfl⟩ := hs
    have hperm := List.perm_orderedInsert (fun new b : RamRange => b.length < new.length)
      ⟨off, (t.align size).toNat⟩ blocks
    suffices hnew : off + (t.align size).toNat ≤ ramAddrMax ∧
        ∀ b ∈ blocks, RamRange.Apart ⟨off, (t.align size).toNat⟩ b by
      refine ⟨(hperm.pairwise_iff Or.symm).mpr (List.pairwise_cons.mpr ⟨hnew.2, h.apart⟩),
        fun b hb => ?_⟩
      rcases List.mem_cons.mp (hperm.subset hb) with rfl | hb
      · exact ⟨Nat.pos_of_ne_zero hpos, hnew.1⟩
      · exact h.bound b hb
    by_cases hne : blocks = []
    · subst hne
      cases hoff
      exact ⟨by have := (t.align size).isLt; unfold ramAddrMax; omega, nofun⟩
    · have hspec := h.findRamOffset_spec hne (Nat.pos_of_ne_zero hpos)
      rw [hoff] at hspec
      obtain ⟨b, hb, rfl, hfit, -⟩ := hspec
      have := h.gap_le hb
      refine ⟨by omega, fun b' hb' => ?_⟩
      rcases ((h.gapBehind_eq hb).2.mpr rfl).1 b' hb' with hap | hap
      · exact .inr hap
      · exact .inl (le_trans (by simp only []; omega) hap)

/-- The blocks that allocations and frees leave do not overlap; a new block goes behind another one,
into the smallest gap that is large enough, and there is none when `find_ram_offset` aborts. -/
theorem ramOffsets_disjoint (t : TargetPage) (blocks : List RamRange)
    (h : Reach (ramStep t) (fun _ _ => True) [] blocks) :
    blocks.Pairwise RamRange.Apart ∧ ∀ size, 0 < size → blocks ≠ [] →
      (∀ off, findRamOffset blocks size = some off → ∃ b ∈ blocks, ∃ g, GapAfter blocks b g ∧
        off = b.offset + b.length ∧ size ≤ g ∧
        ∀ b' ∈ blocks, ∀ g', GapAfter blocks b' g' → size ≤ g' → g ≤ g') ∧
      (findRamOffset blocks size = none → ∀ b ∈ blocks, ∀ g, GapAfter blocks b g → g < size) := by
  have hinv : RamApart blocks :=
    h.invariant ⟨List.Pairwise.nil, nofun⟩ fun _ _ _ hinv _ hs => hinv.step hs
  refine ⟨hinv.apart, fun size hsize hne => ?_⟩
  have hspec := hinv.findRamOffset_spec hne hsize
  refine ⟨fun off hoff => ?_, fun hnone b hb g hg => ?_⟩
  · rw [hoff] at hspec
    obtain ⟨b, hb, rfl, hfit, hmin⟩ := hspec
    refine ⟨b, hb, _, (hinv.gapBehind_eq hb).2.mpr rfl, rfl, hfit, fun b' hb' g' hg' => ?_⟩
    rw [(hinv.gapBehind_eq hb').2.mp hg']
    exact hmin b' hb'
  · rw [hnone] at hspec
    rw [(hinv.gapBehind_eq hb).2.mp hg]
    exact hspec b hb

/-- The theorem after three allocations and a free : the gap in the middle is taken. -/
theorem ramOffsets_disjoint_gap :
    ∃ blocks, Reach (ramStep ⟨12, by decide, by decide⟩) (fun _ _ => True) [] blocks ∧
      findRamOffset blocks 4096 = some 8192 ∧ blocks.Pairwise RamRange.Apart := by
  have hrun : ([.alloc 8192, .alloc 4096, .alloc 4000, .free 8192].foldlM (fun s op =>
      ramStep ⟨12, by decide, by decide⟩ op s) []).bind (findRamOffset · 4096) = some 8192 := by
    decide +kernel
  obtain ⟨blocks, hblocks, hoff⟩ := Option.bind_eq_some_iff.mp hrun
  have hreach := Reach.foldlM _ (fun _ _ _ => trivial) .refl hblocks
  exact ⟨blocks, hreach, hoff, (ramOffsets_disjoint _ _ hreach).1⟩

end QemuArm
