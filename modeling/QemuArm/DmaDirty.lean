import QemuArm.Dispatch

/-!
# Dirty tracking of DMA mappings

`address_space_unmap` marks what was written through a mapping of RAM as dirty, in steps of the
page size from the first byte on, and each step marks the page of its first byte only. From an
address inside of a page the last page can be left out (`addressSpaceUnmap_fail`); for which
mappings it is not says `addressSpaceUnmap_dirty_iff`.

Bitmaps are given by page numbers. `tbInvalidate` is what `tb_invalidate_phys_page_range` does
to the bitmap of code.
-/

namespace QemuArm

structure DirtyMemory where
  vga : ℕ → Bool
  code : ℕ → Bool
  migration : ℕ → Bool

namespace DirtyMemory

variable (t : TargetPage) (tbInvalidate : ℕ → ℕ → (ℕ → Bool) → ℕ → Bool) (d : DirtyMemory)

variable (bits : ℕ → Bool) (addr : ℕ)

/-- `cpu_physical_memory_get_dirty_flag` -/
def getDirtyFlag : Bool :=
  (List.range' (addr / t.size) ((addr + 1 + (t.size - 1)) / t.size - addr / t.size)).any bits

/-- `cpu_physical_memory_is_clean` -/
def isClean (addr : ℕ) : Bool :=
  !(getDirtyFlag t d.vga addr && getDirtyFlag t d.code addr && getDirtyFlag t d.migration addr)

/-- `cpu_physical_memory_set_dirty_flag` -/
def setDirtyFlag : ℕ → Bool :=
  Function.update bits (addr / t.size) true

def invalidateAndSetDirty (addr length : ℕ) : DirtyMemory :=
  if d.isClean t addr then
    ⟨setDirtyFlag t d.vga addr, tbInvalidate addr (addr + length) d.code,
      setDirtyFlag t d.migration addr⟩
  else d

/-- The loop of `address_space_unmap`, with a bound for the number of rounds. -/
def unmapLoop : ℕ → ℕ → ℕ → DirtyMemory → DirtyMemory
  | 0, _, _, d => d
  | n + 1, addr1, accessLen, d =>
    if accessLen = 0 then d
    else
      let l := min t.size accessLen
      unmapLoop n (addr1 + l) (accessLen - l) (d.invalidateAndSetDirty t tbInvalidate addr1 l)

/-- `address_space_unmap` after a write. A round takes at least one byte. -/
def addressSpaceUnmap (addr1 accessLen : ℕ) : DirtyMemory :=
  unmapLoop t tbInvalidate accessLen addr1 accessLen d

/-- The page is dirty for the display and for migration. -/
def Dirty (page : ℕ) : Prop := d.vga page = true ∧ d.migration page = true

instance (page : ℕ) : Decidable (d.Dirty page) := inferInstanceAs (Decidable (_ ∧ _))

variable {t tbInvalidate d} {addr1 accessLen page : ℕ}

theorem getDirtyFlag_eq : getDirtyFlag t bits addr = bits (addr / t.size) := by
  have hpos : 0 < t.size := Nat.two_pow_pos _
  have hend : (addr + 1 + (t.size - 1)) / t.size = addr / t.size + 1 := by
    rw [show addr + 1 + (t.size - 1) = addr + t.size by omega, Nat.add_div_right _ hpos]
  rw [getDirtyFlag, hend]
  simp

theorem dirty_invalidateAndSetDirty {l : ℕ} :
    (d.invalidateAndSetDirty t tbInvalidate addr1 l).Dirty page ↔
      d.Dirty page ∨ page = addr1 / t.size := by
  rw [invalidateAndSetDirty, isClean, getDirtyFlag_eq, getDirtyFlag_eq, getDirtyFlag_eq]
  split
  · simp only [Dirty, setDirtyFlag, Function.update_apply]
    grind
  · rw [Dirty]
    grind

theorem size_sub_one_div : (t.size - 1) / t.size = 0 :=
  Nat.div_eq_of_lt (Nat.sub_lt (Nat.two_pow_pos _) Nat.one_pos)

/-- The pages of the steps are marked. -/
theorem dirty_unmapLoop : ∀ {n addr1 accessLen : ℕ} {d : DirtyMemory}, accessLen ≤ n →
    ((unmapLoop t tbInvalidate n addr1 accessLen d).Dirty page ↔ d.Dirty page ∨
      addr1 / t.size ≤ page ∧ page < addr1 / t.size + (accessLen + (t.size - 1)) / t.size)
  | 0, addr1, accessLen, d, h => by
    rw [unmapLoop, Nat.le_zero.1 h, zero_add, size_sub_one_div]
    grind
  | n + 1, addr1, accessLen, d, h => by
    have hpos : 0 < t.size := Nat.two_pow_pos _
    rw [unmapLoop]
    split_ifs with h0
    · rw [h0, zero_add, size_sub_one_div]
      grind
    rw [dirty_unmapLoop (by omega), dirty_invalidateAndSetDirty]
    rcases le_total accessLen t.size with hle | hle
    · have hone : (accessLen + (t.size - 1)) / t.size = 1 :=
        Nat.div_eq_of_lt_le (by omega) (by omega)
      rw [min_eq_right hle, Nat.sub_self, Nat.zero_add, size_sub_one_div]
      grind
    · rw [min_eq_left hle, Nat.add_div_right _ hpos,
        show accessLen + (t.size - 1) = accessLen - t.size + (t.size - 1) + t.size by omega,
        Nat.add_div_right _ hpos]
      grind

/-- All pages of the bytes that were written are dirty, unless the last of them is left out and
was not dirty before. -/
theorem addressSpaceUnmap_dirty_iff (d : DirtyMemory) (addr1 accessLen : ℕ) :
    (∀ page, page * t.size < addr1 + accessLen → addr1 < (page + 1) * t.size → 0 < accessLen →
      (d.addressSpaceUnmap t tbInvalidate addr1 accessLen).Dirty page) ↔
    (accessLen = 0 ∨ addr1 % t.size + (accessLen - 1) % t.size < t.size ∨
      d.Dirty ((addr1 + accessLen - 1) / t.size)) := by
  have hpos : 0 < t.size := Nat.two_pow_pos _
  rcases Nat.eq_zero_or_pos accessLen with h0 | h0
  · simp [h0]
  have hlast : (addr1 + accessLen - 1) / t.size = addr1 / t.size + (accessLen - 1) / t.size +
      if addr1 % t.size + (accessLen - 1) % t.size < t.size then 0 else 1 := by
    rw [Nat.add_sub_assoc h0, Nat.add_div hpos]
    grind
  have hin : ∀ page, page * t.size < addr1 + accessLen ∧ addr1 < (page + 1) * t.size ↔
      addr1 / t.size ≤ page ∧ page ≤ (addr1 + accessLen - 1) / t.size := by
    intro page
    rw [Nat.le_div_iff_mul_le hpos, ← Nat.lt_add_one_iff, Nat.div_lt_iff_lt_mul hpos]
    omega
  have hsteps : (accessLen + (t.size - 1)) / t.size = (accessLen - 1) / t.size + 1 := by
    rw [show accessLen + (t.size - 1) = accessLen - 1 + t.size by omega, Nat.add_div_right _ hpos]
  simp only [addressSpaceUnmap, dirty_unmapLoop le_rfl, hsteps]
  constructor
  · intro h
    grind
  · intro h page h1 h2 _
    grind

/-- Two bytes from the end of a page on. -/
theorem addressSpaceUnmap_fail :
    ∃ page, page * (⟨12, by decide, by decide⟩ : TargetPage).size < 4095 + 2 ∧
      4095 < (page + 1) * (⟨12, by decide, by decide⟩ : TargetPage).size ∧
      ¬ (addressSpaceUnmap ⟨12, by decide, by decide⟩ (fun _ _ bits => bits)
        ⟨fun _ => false, fun _ => false, fun _ => false⟩ 4095 2).Dirty page :=
  ⟨1, by decide, by decide, by decide⟩

end DirtyMemory

end QemuArm
