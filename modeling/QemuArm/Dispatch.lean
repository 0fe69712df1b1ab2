import QemuArm.MemoryApi

/-!
# The dispatch tree of an address space

`exec.c` keeps, for each address space, a radix tree from page numbers to entries of a table
of sections. The listener of the address space builds a new tree in every update : `memBegin`
starts an empty one, `memAdd` splits a section into a head, a body of whole pages and a tail
and enters each of them, and `memCommit` compacts the finished tree. A page that no single
section covers gets a `subpage_t`, with a section number for each of its bytes.

The nodes of the tree are numbered, and an entry refers to a node by its number; `EntryRef`
is the address of an entry. The code's assertions, and reads outside the node array, are
errors.
-/

namespace QemuArm

/-- The target's page size, as a number of address bits. The table of a `subpage_t` has
16-bit section numbers. -/
structure TargetPage where
  bits : ℕ
  pos : 0 < bits
  le : bits ≤ 16

namespace TargetPage

/-- `TARGET_PAGE_SIZE`. -/
def size (t : TargetPage) : ℕ := 2 ^ t.bits

/-- `TARGET_PAGE_MASK`. -/
def mask (t : TargetPage) : Hwaddr := ~~~(BitVec.ofNat 64 (t.size - 1))

/-- `TARGET_PAGE_ALIGN`. -/
def align (t : TargetPage) (addr : Hwaddr) : Hwaddr :=
  (addr + BitVec.ofNat 64 t.size - 1) &&& t.mask

/-- `P_L2_LEVELS`. -/
def l2Levels (t : TargetPage) : ℕ := (64 - t.bits - 1) / 9 + 1

end TargetPage

namespace Int128

/-! ## More operations of the header -/

/-- `int128_and`. -/
def and (a b : Int128) : Int128 := ⟨a.lo &&& b.lo, a.hi &&& b.hi⟩

/-- `int128_neg`. -/
def neg (a : Int128) : Int128 :=
  let lo := -a.lo
  ⟨lo, ~~~a.hi + if lo = 0 then 1 else 0⟩

/-- `int128_rshift`. -/
def rshift (a : Int128) (n : ℕ) : Int128 :=
  if n = 0 then a
  else
    let h := a.hi.sshiftRight (n % 64)
    if 64 ≤ n then ⟨h, h.sshiftRight 63⟩
    else ⟨a.lo >>> n ||| a.hi <<< (64 - n), h⟩

end Int128

/-! ## The data -/

/-- The number of entries of a node, `P_L2_SIZE`. -/
abbrev l2Size : ℕ := 512

/-- `struct PhysPageEntry` : the levels to skip, zero for a leaf, in 6 bits, and the number
of a section or of a node, in 26 bits. -/
structure PhysPageEntry where
  skip : ℕ
  ptr : ℕ
deriving DecidableEq

/-- `PHYS_MAP_NODE_NIL`. -/
def physMapNodeNil : ℕ := 2 ^ 26 - 1

def physSectionUnassigned : ℕ := 0

def physSectionNotdirty : ℕ := 1

def physSectionRom : ℕ := 2

def physSectionWatch : ℕ := 3

/-- `Node`. -/
abbrev PhysNode := Vector PhysPageEntry l2Size

/-- The regions that a section of the table can be of : those of the memory API, the four
of `exec.c`, and the one inside the `n`-th `subpage_t`. -/
inductive PhysRegion where
  | region (mr : Option MrPtr)
  | ioMemUnassigned
  | ioMemNotdirty
  | ioMemRom
  | ioMemWatch
  | subpage (n : ℕ)
deriving DecidableEq

/-- `struct MemoryRegionSection`, as an entry of the table. -/
structure PhysSection where
  mr : PhysRegion
  addressSpace : AsPtr
  offsetWithinRegion : Hwaddr
  size : Int128
  offsetWithinAddressSpace : Hwaddr
  readonly : Bool
deriving DecidableEq

/-- A section of the memory API. -/
def MemoryRegionSection.toPhys (s : MemoryRegionSection) : PhysSection where
  mr := .region s.mr
  addressSpace := s.addressSpace
  offsetWithinRegion := s.offsetWithinRegion
  size := s.size
  offsetWithinAddressSpace := s.offsetWithinAddressSpace
  readonly := s.readonly

/-- `address_space_memory`. -/
def addressSpaceMemory : AsPtr := 0

/-- `struct subpage_t` without its region. -/
structure SubpageT where
  as : AsPtr
  base : Hwaddr
  subSection : List ℕ
deriving DecidableEq

/-- `struct AddressSpaceDispatch` with its `PhysPageMap`. `nodes` and `sections` hold the
used parts of the arrays, `subpages` the `subpage_t` objects made for it. -/
structure AddressSpaceDispatch where
  physMap : PhysPageEntry
  nodes : List PhysNode
  nodesNbAlloc : ℕ
  sections : List PhysSection
  sectionsNbAlloc : ℕ
  subpages : List SubpageT
  as : AsPtr
deriving DecidableEq

/-- The address of an entry of the tree. -/
inductive EntryRef where
  | physMap
  | node (k : ℕ) (i : Fin l2Size)
deriving DecidableEq

/-- How the construction of a tree can stop. -/
inductive DispatchError where
  /-- `assert(map->sections_nb < TARGET_PAGE_SIZE)` -/
  | tooManySections
  /-- `assert(ret != PHYS_MAP_NODE_NIL)` -/
  | nodeNil
  /-- `assert(ret != map->nodes_nb_alloc)` -/
  | nodesFull
  /-- `assert(existing->mr->subpage || existing->mr == &io_mem_unassigned)` -/
  | pageTaken
  /-- `assert(num_pages)` -/
  | noPages
  /-- `assert(n == ...)` in `mem_begin` -/
  | sectionNumber
  /-- `assert(valid_ptr < P_L2_SIZE)` -/
  | noChild
  /-- `assert(!a.hi)` in `int128_get64` -/
  | get64
  /-- a read outside an array -/
  | outOfBounds
  /-- a recursion below level zero, or deeper than the tree -/
  | tooDeep
deriving DecidableEq

namespace AddressSpaceDispatch

/-- Read `*lp`. -/
def entry (d : AddressSpaceDispatch) : EntryRef → Option PhysPageEntry
  | .physMap => some d.physMap
  | .node k i => d.nodes[k]?.map fun p => p[i]

/-- Write `*lp`. -/
def setEntry (d : AddressSpaceDispatch) (lp : EntryRef) (e : PhysPageEntry) :
    AddressSpaceDispatch :=
  match lp with
  | .physMap => { d with physMap := e }
  | .node k i => { d with nodes := d.nodes.modify k fun p => p.set i e }

end AddressSpaceDispatch

/-- A read that has to succeed. -/
def orFail {α : Type} (e : DispatchError) : Option α → Except DispatchError α
  | some a => .ok a
  | none => .error e

/-- `assert(p)`. -/
def dispatchAssert (p : Prop) [Decidable p] (e : DispatchError) : Except DispatchError Unit :=
  if p then .ok () else .error e

@[simp] theorem except_ok_bind {ε α β : Type} (a : α) (f : α → Except ε β) :
    (Except.ok a >>= f) = f a := rfl

@[simp] theorem orFail_some {α : Type} (e : DispatchError) (a : α) :
    orFail e (some a) = .ok a := rfl

theorem dispatchAssert_pos {p : Prop} [Decidable p] (h : p) (e : DispatchError) :
    dispatchAssert p e = .ok () :=
  if_pos h

/-! ## Entering pages -/

/-- `phys_map_node_reserve`. -/
def physMapNodeReserve (d : AddressSpaceDispatch) (nodes : ℕ) : AddressSpaceDispatch :=
  if d.nodesNbAlloc < d.nodes.length + nodes then
    { d with nodesNbAlloc := max (max (d.nodesNbAlloc * 2) 16) (d.nodes.length + nodes) }
  else d

/-- `phys_map_node_alloc`. -/
def physMapNodeAlloc (d : AddressSpaceDispatch) :
    Except DispatchError (AddressSpaceDispatch × ℕ) := do
  let ret := d.nodes.length
  dispatchAssert (ret ≠ physMapNodeNil) .nodeNil
  dispatchAssert (ret ≠ d.nodesNbAlloc) .nodesFull
  pure ({ d with nodes := d.nodes ++ [Vector.replicate l2Size ⟨1, physMapNodeNil⟩] }, ret)

/-- The position in a node at `level` of the page number `index`. -/
def l2Index (index level : ℕ) : Fin l2Size :=
  ⟨(index >>> (level * 9)) &&& (l2Size - 1), Nat.and_lt_two_pow _ (n := 9) (by decide)⟩

/-- The first part of `phys_page_set_level` : the node that `lp` refers to, a new one if
there is none yet. -/
def physPageNode (level : ℕ) (d : AddressSpaceDispatch) (lp : EntryRef) :
    Except DispatchError (AddressSpaceDispatch × ℕ) := do
  let e ← orFail .outOfBounds (d.entry lp)
  if e.skip ≠ 0 ∧ e.ptr = physMapNodeNil then
    let (d, ret) ← physMapNodeAlloc d
    let d := d.setEntry lp { e with ptr := ret % 2 ^ 26 }
    let leaves : PhysNode := Vector.replicate l2Size ⟨0, physSectionUnassigned⟩
    pure (if level = 0 then { d with nodes := d.nodes.set ret leaves } else d, ret)
  else
    pure (d, e.ptr)

/-- The loop of `phys_page_set_level` over the last `left` entries of node `k`. -/
def physPageSetEntries (leaf level k : ℕ)
    (descend : AddressSpaceDispatch → EntryRef → ℕ → ℕ →
      Except DispatchError (AddressSpaceDispatch × ℕ × ℕ)) :
    ℕ → AddressSpaceDispatch → ℕ → ℕ → Except DispatchError (AddressSpaceDispatch × ℕ × ℕ)
  | 0, d, index, nb => .ok (d, index, nb)
  | left + 1, d, index, nb =>
    let step := 2 ^ (level * 9)
    let lp := EntryRef.node k ⟨l2Size - 1 - left, by unfold l2Size; omega⟩
    if nb = 0 then .ok (d, index, nb)
    else if index &&& (step - 1) = 0 ∧ step ≤ nb then
      physPageSetEntries leaf level k descend left (d.setEntry lp ⟨0, leaf⟩)
        ((index + step) % 2 ^ 64) (nb - step)
    else do
      let (d, index, nb) ← descend d lp index nb
      physPageSetEntries leaf level k descend left d index nb

/-- `phys_page_set_level` : the new tree, with what `*index` and `*nb` are set to. -/
def physPageSetLevel (leaf : ℕ) : ℕ → AddressSpaceDispatch → EntryRef → ℕ → ℕ →
    Except DispatchError (AddressSpaceDispatch × ℕ × ℕ)
  | 0, d, lp, index, nb => do
    let (d, k) ← physPageNode 0 d lp
    physPageSetEntries leaf 0 k (fun _ _ _ _ => .error .tooDeep) (l2Size - l2Index index 0)
      d index nb
  | level + 1, d, lp, index, nb => do
    let (d, k) ← physPageNode (level + 1) d lp
    physPageSetEntries leaf (level + 1) k (physPageSetLevel leaf level)
      (l2Size - l2Index index (level + 1)) d index nb

variable (t : TargetPage) (d : AddressSpaceDispatch)

/-- `phys_page_set`. -/
def physPageSet (index nb leaf : ℕ) : Except DispatchError AddressSpaceDispatch := do
  let d := physMapNodeReserve d (3 * t.l2Levels)
  let (d, _, _) ← physPageSetLevel leaf (t.l2Levels - 1) d .physMap index nb
  pure d

/-! ## Compaction -/

/-- The loop of `phys_page_compact` over the entries `is` of node `k` : the number of
children, and the position of the last one. -/
def physPageCompactChildren (k : ℕ)
    (compact : AddressSpaceDispatch → EntryRef → Except DispatchError AddressSpaceDispatch) :
    List (Fin l2Size) → AddressSpaceDispatch → ℕ → ℕ →
      Except DispatchError (AddressSpaceDispatch × ℕ × ℕ)
  | [], d, validPtr, valid => .ok (d, validPtr, valid)
  | i :: is, d, validPtr, valid => do
    let c ← orFail .outOfBounds (d.entry (.node k i))
    if c.ptr = physMapNodeNil then
      physPageCompactChildren k compact is d validPtr valid
    else
      let d ← (if c.skip ≠ 0 then compact d (.node k i) else .ok d)
      physPageCompactChildren k compact is d i (valid + 1)

/-- The rest of `phys_page_compact` : an entry with a single child refers to what the child
refers to. -/
def physPageSkipChild (d : AddressSpaceDispatch) (lp : EntryRef) (k validPtr valid : ℕ) :
    Except DispatchError AddressSpaceDispatch :=
  if valid ≠ 1 then .ok d
  else if h : validPtr < l2Size then do
    let e ← orFail .outOfBounds (d.entry lp)
    let c ← orFail .outOfBounds (d.entry (.node k ⟨validPtr, h⟩))
    if 1 <<< 3 ≤ e.skip + c.skip then .ok d
    else if c.skip = 0 then .ok (d.setEntry lp ⟨0, c.ptr⟩)
    else .ok (d.setEntry lp ⟨(e.skip + c.skip) % 2 ^ 6, c.ptr⟩)
  else .error .noChild

/-- `phys_page_compact`, down to a given depth. -/
def physPageCompact : ℕ → AddressSpaceDispatch → EntryRef →
    Except DispatchError AddressSpaceDispatch
  | 0, _, _ => .error .tooDeep
  | depth + 1, d, lp => do
    let e ← orFail .outOfBounds (d.entry lp)
    if e.ptr = physMapNodeNil then .ok d
    else
      let (d, validPtr, valid) ← physPageCompactChildren e.ptr (physPageCompact depth)
        (List.finRange l2Size) d l2Size 0
      physPageSkipChild d lp e.ptr validPtr valid

/-- `phys_page_compact_all`. -/
def physPageCompactAll : Except DispatchError AddressSpaceDispatch :=
  if d.physMap.skip ≠ 0 then physPageCompact t.l2Levels d .physMap else .ok d

/-! ## Lookup -/

/-- The loop of `phys_page_find` : the number of the section it stops at. -/
def physPageWalk (nodes : List PhysNode) (i : ℕ) (lp : PhysPageEntry) (index : ℕ) : Option ℕ :=
  if lp.skip = 0 then some lp.ptr
  else if i < lp.skip then some lp.ptr
  else if lp.ptr = physMapNodeNil then some physSectionUnassigned
  else do
    let p ← nodes[lp.ptr]?
    physPageWalk nodes (i - lp.skip) p[l2Index index (i - lp.skip)] index
termination_by i

/-- `range_covers_byte`. -/
def rangeCoversByte (offset len byte : Hwaddr) : Bool :=
  decide (offset ≤ byte) && decide (byte ≤ offset + len - 1)

/-- `phys_page_find`. -/
def physPageFind (lp : PhysPageEntry) (addr : Hwaddr) : Option PhysSection := do
  let n ← physPageWalk d.nodes t.l2Levels lp (addr >>> t.bits).toNat
  let s ← d.sections[n]?
  if s.size.hi ≠ 0 ∨ rangeCoversByte s.offsetWithinAddressSpace s.size.lo addr then some s
  else d.sections[physSectionUnassigned]?

/-- `address_space_lookup_region`. -/
def addressSpaceLookupRegion (addr : Hwaddr) (resolveSubpage : Bool) : Option PhysSection := do
  let s ← physPageFind t d d.physMap addr
  match s.mr with
  | .subpage k =>
    if resolveSubpage then do
      let subpage ← d.subpages[k]?
      let n ← subpage.subSection[(addr &&& ~~~t.mask).toNat]?
      d.sections[n]?
    else some s
  | _ => some s

/-! ## Sections and subpages -/

/-- `phys_section_add`. -/
def physSectionAdd (s : PhysSection) : Except DispatchError (AddressSpaceDispatch × ℕ) := do
  dispatchAssert (d.sections.length < t.size) .tooManySections
  let alloc := if d.sections.length = d.sectionsNbAlloc then max (d.sectionsNbAlloc * 2) 16
    else d.sectionsNbAlloc
  pure ({ d with sections := d.sections ++ [s], sectionsNbAlloc := alloc },
    d.sections.length % 2 ^ 16)

/-- The loop of `subpage_register` : `n` entries from `idx` on. -/
def subpageFill (sec : ℕ) : ℕ → ℕ → List ℕ → List ℕ
  | 0, _, table => table
  | n + 1, idx, table => subpageFill sec n (idx + 1) (table.set idx sec)

/-- `subpage_register` : the table after it. -/
def subpageRegister (t : TargetPage) (table : List ℕ) (first last : Hwaddr) (sec : ℕ) : List ℕ :=
  let first := first.toNat % 2 ^ 32
  let last := last.toNat % 2 ^ 32
  if t.size ≤ first ∨ t.size ≤ last then table
  else subpageFill sec (last + 1 - first) first table

/-- `subpage_init` : the `subpage_t`, whose table is zeroed and then set to the unassigned
section. -/
def subpageInit (t : TargetPage) (as : AsPtr) (base : Hwaddr) : SubpageT where
  as := as
  base := base
  subSection := subpageRegister t (List.replicate t.size 0) 0 (BitVec.ofNat 64 (t.size - 1))
    physSectionUnassigned

/-- The `subpage_t` for the page at `base`, where `existing` is the section found there. -/
def subpageAt (base : Hwaddr)
    (existing : PhysSection) : Except DispatchError (AddressSpaceDispatch × ℕ) :=
  match existing.mr with
  | .subpage k => .ok (d, k)
  | .ioMemUnassigned => do
    let k := d.subpages.length
    let d := { d with subpages := d.subpages ++ [subpageInit t d.as base] }
    let subsection : PhysSection :=
      { mr := .subpage k, addressSpace := d.as, offsetWithinRegion := 0
        size := .make64 (BitVec.ofNat 64 t.size), offsetWithinAddressSpace := base
        readonly := false }
    let (d, n) ← physSectionAdd t d subsection
    let d ← physPageSet t d (base >>> t.bits).toNat 1 n
    pure (d, k)
  | _ => .error .pageTaken

/-- `register_subpage`. -/
def registerSubpage (s : PhysSection) : Except DispatchError AddressSpaceDispatch := do
  let base := s.offsetWithinAddressSpace &&& t.mask
  let existing ← orFail .outOfBounds (physPageFind t d d.physMap base)
  let (d, k) ← subpageAt t d base existing
  let first := s.offsetWithinAddressSpace &&& ~~~t.mask
  let size ← orFail .get64 s.size.get64
  let last := first + size - 1
  let (d, n) ← physSectionAdd t d s
  pure { d with subpages := d.subpages.modify k fun subpage =>
    { subpage with subSection := subpageRegister t subpage.subSection first last n } }

/-- `register_multipage`. -/
def registerMultipage (s : PhysSection) : Except DispatchError AddressSpaceDispatch := do
  let (d, sectionIndex) ← physSectionAdd t d s
  let numPages ← orFail .get64 (s.size.rshift t.bits).get64
  dispatchAssert (numPages ≠ 0) .noPages
  physPageSet t d (s.offsetWithinAddressSpace >>> t.bits).toNat numPages.toNat sectionIndex

/-! ## The listener -/

/-- The end of a round of `mem_add`'s loop : register a piece at the start of `remain`, and
give its size. -/
def memAddPiece (remain : PhysSection) : Except DispatchError (AddressSpaceDispatch × Int128) :=
  let pageSize := Int128.make64 (BitVec.ofNat 64 t.size)
  if !remain.size.ge pageSize then do
    let d ← registerSubpage t d remain
    pure (d, remain.size)
  else if remain.offsetWithinAddressSpace &&& ~~~t.mask ≠ 0 then do
    let d ← registerSubpage t d { remain with size := pageSize }
    pure (d, pageSize)
  else do
    let size := remain.size.and pageSize.neg
    let d ← registerMultipage t d { remain with size := size }
    pure (d, size)

/-- The loop of `mem_add`, for at most the given number of rounds. -/
def memAddLoop (t : TargetPage) : ℕ → AddressSpaceDispatch → PhysSection → Int128 →
    Except DispatchError AddressSpaceDispatch
  | rounds, d, remain, nowSize =>
    if remain.size = nowSize then .ok d
    else match rounds with
    | 0 => .error .tooDeep
    | rounds + 1 => do
      let size64 ← orFail .get64 nowSize.get64
      let remain := { remain with
        size := remain.size.sub nowSize
        offsetWithinAddressSpace := remain.offsetWithinAddressSpace + size64
        offsetWithinRegion := remain.offsetWithinRegion + size64 }
      let (d, nowSize) ← memAddPiece t d remain
      memAddLoop t rounds d remain nowSize

/-- `mem_add`. -/
def memAdd (sec : MemoryRegionSection) : Except DispatchError AddressSpaceDispatch := do
  let now := sec.toPhys
  if now.offsetWithinAddressSpace &&& ~~~t.mask ≠ 0 then
    let left := t.align now.offsetWithinAddressSpace - now.offsetWithinAddressSpace
    let size := AddressArith.min (Int128.make64 left) now.size
    let d ← registerSubpage t d { now with size := size }
    memAddLoop t 2 d now size
  else
    memAddLoop t 2 d now Int128.zero

/-- `dummy_section`. -/
def dummySection (mr : PhysRegion) : Except DispatchError (AddressSpaceDispatch × ℕ) :=
  physSectionAdd t d
    { mr := mr, addressSpace := addressSpaceMemory, offsetWithinRegion := 0, size := .two64
      offsetWithinAddressSpace := 0, readonly := false }

/-- A zeroed `AddressSpaceDispatch`, with its address space set. -/
def AddressSpaceDispatch.new (as : AsPtr) : AddressSpaceDispatch where
  physMap := ⟨0, 0⟩
  nodes := []
  nodesNbAlloc := 0
  sections := []
  sectionsNbAlloc := 0
  subpages := []
  as := as

/-- `mem_begin` : the empty tree. -/
def memBegin (t : TargetPage) (as : AsPtr) : Except DispatchError AddressSpaceDispatch := do
  let (d, n) ← dummySection t (.new as) .ioMemUnassigned
  dispatchAssert (n = physSectionUnassigned) .sectionNumber
  let (d, n) ← dummySection t d .ioMemNotdirty
  dispatchAssert (n = physSectionNotdirty) .sectionNumber
  let (d, n) ← dummySection t d .ioMemRom
  dispatchAssert (n = physSectionRom) .sectionNumber
  let (d, n) ← dummySection t d .ioMemWatch
  dispatchAssert (n = physSectionWatch) .sectionNumber
  pure { d with physMap := ⟨1, physMapNodeNil⟩ }

/-- `mem_commit` : the tree that lookups use from then on. -/
def memCommit : Except DispatchError AddressSpaceDispatch :=
  physPageCompactAll t d

/-- One update of an address space's listener : `begin`, a call for each section, `commit`. -/
def dispatchUpdate (t : TargetPage) (as : AsPtr) (secs : List MemoryRegionSection) :
    Except DispatchError AddressSpaceDispatch := do
  let d ← memBegin t as
  let d ← secs.foldlM (memAdd t) d
  memCommit t d

end QemuArm
