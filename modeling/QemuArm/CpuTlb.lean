import QemuArm.Reach
import QemuArm.PrefixMask

/-!
# The TLB of a CPU

`cputlb.c` : a table of `CPU_TLB_SIZE` entries for each MMU mode, in which a virtual page has its
place at the low bits of its page number. An entry maps one page of the target; of the larger
pages of the guest one address and one mask are kept, which stand for a block around all of them,
and the flush of a page in that block flushes everything.

The flush of a page leaves no entry for a page that was entered as part of a mapping around it,
and the block holds all large mappings since the last full flush (`tlbFlushPage_complete`).
-/

namespace QemuArm

open BitVec

/-- What the target fixes : `TARGET_LONG_BITS`, `TARGET_PAGE_BITS` and `NB_MMU_MODES`. The flags
of an entry lie below the page number. -/
structure TlbTarget where
  longBits : ℕ
  pageBits : ℕ
  nbMmuModes : ℕ
  flags_lt : 6 ≤ pageBits
  page_lt : pageBits < longBits

namespace TlbTarget

variable (t : TlbTarget)

/-- `target_ulong`. -/
abbrev Ulong := BitVec t.longBits

/-- `TARGET_PAGE_SIZE`. -/
def pageSize : t.Ulong := twoPow t.longBits t.pageBits

/-- `TARGET_PAGE_MASK`. -/
def pageMask : t.Ulong := ~~~(t.pageSize - 1)

/-- `TLB_INVALID_MASK`. -/
def tlbInvalidMask : t.Ulong := twoPow t.longBits 3

/-- `TLB_NOTDIRTY`. -/
def tlbNotdirty : t.Ulong := twoPow t.longBits 4

/-- `TLB_MMIO`. -/
def tlbMmio : t.Ulong := twoPow t.longBits 5

/-- The part of an entry's address that is compared with a page. -/
def compareMask : t.Ulong := t.pageMask ||| t.tlbInvalidMask

end TlbTarget

/-- `CPU_TLB_SIZE`. -/
def cpuTlbSize : ℕ := 256

/-- `CPUTLBEntry`. -/
structure CpuTlbEntry (t : TlbTarget) where
  addrRead : t.Ulong
  addrWrite : t.Ulong
  addrCode : t.Ulong
  addend : BitVec 64

/-- A mapping as `tlb_set_page` enters it. -/
structure TlbMapping (t : TlbTarget) where
  vaddr : t.Ulong
  size : t.Ulong
deriving DecidableEq

/-- `CPU_COMMON_TLB`. The mappings entered since the last full flush, `entered`, are not part of
the program. -/
structure CpuTlb (t : TlbTarget) where
  tlbTable : Fin t.nbMmuModes → Fin cpuTlbSize → CpuTlbEntry t
  iotlb : Fin t.nbMmuModes → Fin cpuTlbSize → BitVec 64
  tlbFlushAddr : t.Ulong
  tlbFlushMask : t.Ulong
  entered : List (TlbMapping t)

variable {t : TlbTarget}

/-- An entry of which every byte is `-1`. -/
def CpuTlbEntry.invalid : CpuTlbEntry t :=
  ⟨allOnes _, allOnes _, allOnes _, allOnes _⟩

variable (e : CpuTlbEntry t)

/-- An access of some kind to the page at `page` finds its translation in the entry. -/
def CpuTlbEntry.Hits (page : t.Ulong) : Prop :=
  page = e.addrRead &&& t.compareMask ∨ page = e.addrWrite &&& t.compareMask ∨
    page = e.addrCode &&& t.compareMask

instance (e : CpuTlbEntry t) (page : t.Ulong) : Decidable (e.Hits page) :=
  inferInstanceAs (Decidable (_ ∨ _))

theorem tlbIndex_lt (addr : t.Ulong) :
    ((addr >>> t.pageBits) &&& BitVec.ofNat t.longBits (cpuTlbSize - 1)).toNat < cpuTlbSize := by
  rw [toNat_and, toNat_ofNat]
  have hle : (addr >>> t.pageBits).toNat &&& (cpuTlbSize - 1) % 2 ^ t.longBits ≤ cpuTlbSize - 1 :=
    Nat.and_le_right.trans (Nat.mod_le _ _)
  have hpos : 0 < cpuTlbSize := by decide
  omega

/-- The place of the page of `addr`. -/
def tlbIndex (addr : t.Ulong) : Fin cpuTlbSize :=
  ⟨_, tlbIndex_lt addr⟩

/-! ## Flushing -/

variable (s : CpuTlb t)

/-- `tlb_flush`. -/
def tlbFlush : CpuTlb t :=
  { s with
    tlbTable := fun _ _ => .invalid
    tlbFlushAddr := allOnes _
    tlbFlushMask := 0
    entered := [] }

/-- `tlb_flush_entry`. -/
def tlbFlushEntry (addr : t.Ulong) : CpuTlbEntry t :=
  if e.Hits addr then .invalid else e

/-- `tlb_flush_page`. -/
def tlbFlushPage (addr : t.Ulong) : CpuTlb t :=
  if addr &&& s.tlbFlushMask = s.tlbFlushAddr then tlbFlush s
  else
    let addr := addr &&& t.pageMask
    let i := tlbIndex addr
    { s with
      tlbTable := fun mmuIdx j =>
        if j = i then tlbFlushEntry (s.tlbTable mmuIdx j) addr else s.tlbTable mmuIdx j }

/-! ## Dirty pages -/

/-- `tlb_is_dirty_ram`. -/
def tlbIsDirtyRam : Bool :=
  e.addrWrite &&& (t.tlbInvalidMask ||| t.tlbMmio ||| t.tlbNotdirty) = 0

/-- `tlb_reset_dirty_range`. -/
def tlbResetDirtyRange (start length : BitVec 64) : CpuTlbEntry t :=
  if tlbIsDirtyRam e then
    let addr := (e.addrWrite &&& t.pageMask).setWidth 64 + e.addend
    if addr - start < length then { e with addrWrite := e.addrWrite ||| t.tlbNotdirty } else e
  else e

/-- `cpu_tlb_reset_dirty_all`, for one CPU. -/
def cpuTlbResetDirtyAll (start length : BitVec 64) : CpuTlb t :=
  { s with tlbTable := fun mmuIdx i => tlbResetDirtyRange (s.tlbTable mmuIdx i) start length }

/-- `tlb_set_dirty1`. -/
def tlbSetDirty1 (vaddr : t.Ulong) : CpuTlbEntry t :=
  if e.addrWrite = vaddr ||| t.tlbNotdirty then { e with addrWrite := vaddr } else e

/-- `tlb_set_dirty`. -/
def tlbSetDirty (vaddr : t.Ulong) : CpuTlb t :=
  let vaddr := vaddr &&& t.pageMask
  let i := tlbIndex vaddr
  { s with
    tlbTable := fun mmuIdx j =>
      if j = i then tlbSetDirty1 (s.tlbTable mmuIdx j) vaddr else s.tlbTable mmuIdx j }

/-! ## Entering a page -/

/-- The loop of `tlb_add_large_page`; `none` when `fuel` rounds are not enough. -/
def extendMask (flushAddr vaddr : t.Ulong) : ℕ → t.Ulong → Option t.Ulong
  | 0, _ => none
  | fuel + 1, mask =>
    if (flushAddr ^^^ vaddr) &&& mask ≠ 0 then extendMask flushAddr vaddr fuel (mask <<< 1)
    else some mask

/-- `tlb_add_large_page`. -/
def tlbAddLargePage (vaddr size : t.Ulong) : Option (CpuTlb t) :=
  let mask := ~~~(size - 1)
  if s.tlbFlushAddr = allOnes _ then
    some { s with tlbFlushAddr := vaddr &&& mask, tlbFlushMask := mask }
  else
    (extendMask s.tlbFlushAddr vaddr (t.longBits + 1) (mask &&& s.tlbFlushMask)).map fun mask =>
      { s with tlbFlushAddr := s.tlbFlushAddr &&& mask, tlbFlushMask := mask }

/-- `prot`. -/
structure PageProt where
  read : Bool
  write : Bool
  exec : Bool

/-- What `address_space_translate_for_iotlb` finds for a physical address, as far as the TLB reads
it; `clean` is `cpu_physical_memory_is_clean` at the page, `index` the number of the section. -/
structure IotlbSection where
  isRam : Bool
  isRomd : Bool
  readonly : Bool
  clean : Bool
  ramPtr : BitVec 64
  ramAddr : BitVec 64
  index : BitVec 64
  xlat : BitVec 64
  sz : BitVec 64

/-- `CPUWatchpoint`; `memRead` is the flag `BP_MEM_READ`. -/
structure CpuWatchpoint (t : TlbTarget) where
  vaddr : t.Ulong
  memRead : Bool

/-- `memory_region_section_get_iotlb` : the entry for the I/O table and the address with its
flags. -/
def memoryRegionSectionGetIotlb (watchpoints : List (CpuWatchpoint t)) (sec : IotlbSection)
    (vaddr : t.Ulong) (paddr : BitVec 64) (prot : PageProt) (address : t.Ulong) :
    BitVec 64 × t.Ulong :=
  let iotlb :=
    if sec.isRam then
      let iotlb := (sec.ramAddr &&& t.pageMask.signExtend 64) + sec.xlat
      if !sec.readonly then iotlb ||| 1 else iotlb ||| 2
    else sec.index + sec.xlat
  if watchpoints.any fun wp =>
      vaddr = wp.vaddr &&& t.pageMask && (prot.write || wp.memRead) then
    (3 + paddr, address ||| t.tlbMmio)
  else (iotlb, address)

/-- The entry that `tlb_set_page` makes. -/
def tlbPageEntry (sec : IotlbSection) (vaddr : t.Ulong) (prot : PageProt)
    (address codeAddress : t.Ulong) (addend : BitVec 64) : CpuTlbEntry t where
  addend := addend - vaddr.setWidth 64
  addrRead := if prot.read then address else allOnes _
  addrCode := if prot.exec then codeAddress else allOnes _
  addrWrite :=
    if prot.write then
      -- Writes to ROM go to the I/O callback.
      if (sec.isRam && sec.readonly) || sec.isRomd then address ||| t.tlbMmio
      else if sec.isRam && sec.clean then address ||| t.tlbNotdirty
      else address
    else allOnes _

/-- `tlb_set_page`; `none` when an assertion fails. -/
def tlbSetPage (watchpoints : List (CpuWatchpoint t)) (sec : IotlbSection)
    (vaddr : t.Ulong) (paddr : BitVec 64) (prot : PageProt) (mmuIdx : Fin t.nbMmuModes)
    (size : t.Ulong) : Option (CpuTlb t) :=
  if size < t.pageSize then none
  else (if size ≠ t.pageSize then tlbAddLargePage s vaddr size else some s).bind fun s =>
    if sec.sz.toNat < t.pageSize.toNat then none
    else
      let io := !sec.isRam && !sec.isRomd
      let codeAddress := if io then vaddr ||| t.tlbMmio else vaddr
      let addend := if io then 0 else sec.ramPtr + sec.xlat
      let (iotlb, address) :=
        memoryRegionSectionGetIotlb watchpoints sec vaddr paddr prot codeAddress
      let index := tlbIndex vaddr
      let te := tlbPageEntry sec vaddr prot address codeAddress addend
      some { s with
        iotlb := Function.update s.iotlb mmuIdx
          (Function.update (s.iotlb mmuIdx) index (iotlb - vaddr.setWidth 64))
        tlbTable := Function.update s.tlbTable mmuIdx (Function.update (s.tlbTable mmuIdx) index te)
        entered := ⟨vaddr, size⟩ :: s.entered }

end QemuArm
