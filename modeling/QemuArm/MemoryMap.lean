import QemuArm.FlatViewInt128
import QemuArm.MemoryStale

/-!
# What an address space maps after any calls

Flat views are not stale, and they say what the hierarchy says : so between transactions an
address space maps every address to the region that pointwise resolution finds for it in the
hierarchy as the calls have left it (`memoryMap_resolves`).
-/

namespace QemuArm

/-- Between transactions, in every run of announced calls, the flat view of an address space is well
formed and maps each address to what the hierarchy resolves it to. -/
theorem memoryMap_resolves {mem : Memory} {stack : ℕ}
    (hmem : ∀ p, (mem p).parent = none ∧ (mem p).subregions = []) {st : MemoryState}
    (hrun : Reach (memoryStep stack) Announced (MemoryState.init mem hmem) st)
    (hdepth : st.depth = 0) {as : AddressSpace} (has : as ∈ st.spaces) {root : MrPtr}
    (hroot : as.root = some root) :
    ViewOK (as.currentMap.map FlatRange.decode) ∧ ∀ a, 0 ≤ a → a < 2 ^ 64 →
      viewAt (as.currentMap.map FlatRange.decode) a = resolve st.mem stack root 0 false a := by
  have hu : UpToDate stack st := hrun.invariant
    ⟨fun _ as has => absurd has List.not_mem_nil, fun _ => rfl⟩
    fun s i s' hs hok hstep => memoryStep_upToDate hs hok hstep
  have hview := hu.tracked (hu.closed hdepth) as has trivial
  rw [hroot, generateMemoryTopology_ofInt] at hview
  rcases generateMemoryTopology_int st.mem stack root with
    herr | ⟨-, herr⟩ | ⟨-, view, hok, hview', hat⟩
  · rw [herr] at hview
    cases hview
  · rw [herr] at hview
    cases hview
  · rw [hok] at hview
    rw [← Except.ok.inj hview, decode_encodeView hview']
    exact ⟨hview', fun a h0 h1 => (hat a).trans (if_pos ⟨h0, by simpa [fullRange] using h1⟩)⟩

/-- A bus, devices, and an alias of the upper half of device 1, not yet connected. -/
def busMemory : Memory
  | 0 => memoryRegionInit 0x10000
  | 3 => memoryRegionInitAlias 1 0x800 0x800
  | _ => memoryRegionInitIo 0x1000

theorem busMemory_unlinked (p : MrPtr) :
    (busMemory p).parent = none ∧ (busMemory p).subregions = [] := by
  unfold busMemory
  split <;> exact ⟨rfl, rfl⟩

/-- Device 2 overlaps the upper half of device 1 on the bus, and the alias still shows that half. -/
theorem memoryMap_resolves_bus : ∃ st, Reach (memoryStep 3) Announced
    (.init busMemory busMemory_unlinked) st ∧ st.spaces.length = 1 ∧ ∀ as ∈ st.spaces,
      [0x1700, 0x1900, 0x8010].map (fun a =>
        (viewAt (as.currentMap.map FlatRange.decode) a).map fun r => (r.mr, r.offset)) =
      [some (1, 0x700), some (2, 0x100), some (1, 0x810)] := by
  have hrun : (do
      let s₁ ← memoryStep 3 (.addSubregion 0 0x1000 1) (.init busMemory busMemory_unlinked)
      let s₂ ← memoryStep 3 (.addSubregionOverlap 0 0x1800 2 1) s₁
      let s₃ ← memoryStep 3 (.addSubregion 0 0x8000 3) s₂
      let s₄ ← memoryStep 3 (.addressSpaceInit 0 0) s₃
      some (decide (s₁.spaces.length = 0 ∧ s₂.spaces.length = 0 ∧ s₄.depth = 0 ∧
        s₄.spaces.map AddressSpace.root = [some 0] ∧
        [0x1700, 0x1900, 0x8010].map (fun a =>
          (resolve s₄.mem 3 0 0 false a).map fun r => (r.mr, r.offset)) =
        [some (1, 0x700), some (2, 0x100), some (1, 0x810)]))) = some true := by
    decide +kernel
  simp only [Option.bind_eq_bind, Option.bind_eq_some_iff] at hrun
  obtain ⟨s₁, h₁, s₂, h₂, s₃, h₃, s₄, h₄, hrun⟩ := hrun
  obtain ⟨hnone₁, hnone₂, hdepth, hroots, hres⟩ := of_decide_eq_true (Option.some.inj hrun)
  -- no region is the root of an address space before the last call
  have hno : ∀ {s : MemoryState} {p}, s.spaces.length = 0 → ¬IsRoot s p := by
    rintro s p hs ⟨as, has, -⟩
    rw [List.eq_nil_of_length_eq_zero hs] at has
    cases has
  have r₁ : Reach (memoryStep 3) Announced (.init busMemory busMemory_unlinked) s₁ :=
    Reach.refl.tail (i := .addSubregion 0 0x1000 1) (fun _ _ hr => absurd hr (hno rfl)) h₁
  have r₂ := r₁.tail (i := .addSubregionOverlap 0 0x1800 2 1)
    (fun _ _ hr => absurd hr (hno hnone₁)) h₂
  have r₃ := r₂.tail (i := .addSubregion 0 0x8000 3) (fun _ _ hr => absurd hr (hno hnone₂)) h₃
  have r₄ := r₃.tail (i := MemoryOp.addressSpaceInit 0 0) trivial h₄
  have hlen := congrArg List.length hroots
  rw [List.length_map] at hlen
  refine ⟨s₄, r₄, hlen, fun as has => ?_⟩
  have hroot : as.root = some 0 := by
    have hmem := List.mem_map_of_mem (f := AddressSpace.root) has
    rw [hroots] at hmem
    exact List.mem_singleton.1 hmem
  have hview := (memoryMap_resolves busMemory_unlinked r₄ hdepth has hroot).2
  rw [← hres]
  refine List.map_congr_left fun a ha => ?_
  rw [hview a]
  · fin_cases ha <;> decide
  · fin_cases ha <;> decide

end QemuArm
