import QemuArm.Int128

/-!
# Memory regions and flat views

The memory hierarchy of `memory.c` : regions that contain, alias and obscure each other,
and `generate_memory_topology`, which renders the tree under a region into a sorted list
of disjoint ranges.

Regions live in a heap, `Memory`, and point at each other. The recursion of
`render_memory_region` has a bound on its depth, and the two ways to fail are told apart :
the assertion of `int128_get64`, and a hierarchy deeper than the bound. The functions are
over any `AddressArith`; the code is the instance at `Int128`. The array of a `FlatView`
is a list, with the index of the C loops as the part of the list already passed.
-/

namespace QemuArm

open AddressArith

/-- A pointer to a `MemoryRegion`. -/
abbrev MrPtr := ℕ

/-- `struct AddrRange`. -/
@[ext]
structure AddrRange (α : Type) where
  start : α
  size : α
deriving DecidableEq

/-- `struct MemoryRegionIoeventfd`; the notifier `e` is an address. -/
structure MemoryRegionIoeventfd where
  addr : AddrRange Int128
  matchData : Bool
  data : Hwaddr
  e : ℕ
deriving DecidableEq

/-- The fields of `struct MemoryRegion` that decide the memory map. Sizes are
`int128_make64` of a `uint64_t` or `2 ^ 64` (`memory_region_init`). -/
structure MemoryRegion where
  parent : Option MrPtr
  size : Int128
  size_nonneg : 0 ≤ size.toInt
  size_le : size.toInt ≤ 2 ^ 64
  addr : Hwaddr
  terminates : Bool
  romdMode : Bool
  readonly : Bool
  enabled : Bool
  /-- `alias`. -/
  aliasMr : Option MrPtr
  aliasOffset : Hwaddr
  priority : ℤ
  mayOverlap : Bool
  subregions : List MrPtr
  dirtyLogMask : BitVec 8
  ioeventfds : List MemoryRegionIoeventfd
  /-- `memory_region_wrong_endianness`. -/
  wrongEndianness : Bool

/-- `UINT64_MAX` asks for the whole 64-bit space. -/
def initSize (size : Hwaddr) : Int128 := if size = -1 then Int128.two64 else Int128.make64 size

theorem initSize_bounds (size : Hwaddr) :
    0 ≤ (initSize size).toInt ∧ (initSize size).toInt ≤ 2 ^ 64 := by
  unfold initSize
  split
  · decide
  · have hzero : (0 : BitVec 64).toInt = 0 := rfl
    rw [Int128.toInt, Int128.make64, hzero]
    omega

def memoryRegionInit (size : Hwaddr) : MemoryRegion where
  parent := none
  size := initSize size
  size_nonneg := (initSize_bounds size).1
  size_le := (initSize_bounds size).2
  addr := 0
  terminates := false
  romdMode := true
  readonly := false
  enabled := true
  aliasMr := none
  aliasOffset := 0
  priority := 0
  mayOverlap := false
  subregions := []
  dirtyLogMask := 0
  ioeventfds := []
  wrongEndianness := false

def memoryRegionInitIo (size : Hwaddr) : MemoryRegion :=
  { memoryRegionInit size with terminates := true }

def memoryRegionInitAlias (orig : MrPtr) (offset size : Hwaddr) : MemoryRegion :=
  { memoryRegionInit size with aliasMr := some orig, aliasOffset := offset }

/-- The heap of regions. -/
abbrev Memory := MrPtr → MemoryRegion

/-- `struct FlatRange`. -/
@[ext]
structure FlatRange (α : Type) where
  mr : MrPtr
  offsetInRegion : Hwaddr
  addr : AddrRange α
  dirtyLogMask : BitVec 8
  romdMode : Bool
  readonly : Bool
deriving DecidableEq

/-- The ranges of a `FlatView`. -/
abbrev FlatView (α : Type) := List (FlatRange α)

inductive RenderError where
  /-- `int128_get64` on a value of more than 64 bits. -/
  | assertFailed
  /-- The regions nest deeper than the bound. -/
  | tooDeep
deriving DecidableEq

section

variable {α : Type} [AddressArith α]

/-! ## Address ranges -/

@[simp] def addrrangeEnd (r : AddrRange α) : α := add r.start r.size

def addrrangeContains (range : AddrRange α) (addr : α) : Bool :=
  ge addr range.start && lt addr (addrrangeEnd range)

def addrrangeIntersects (r1 r2 : AddrRange α) : Bool :=
  addrrangeContains r1 r2.start || addrrangeContains r2 r1.start

def addrrangeIntersection (r1 r2 : AddrRange α) : AddrRange α :=
  let start := max r1.start r2.start
  let stop := min (addrrangeEnd r1) (addrrangeEnd r2)
  ⟨start, sub stop start⟩

def addrrangeEqual (r1 r2 : AddrRange α) : Bool := eq r1.start r2.start && eq r1.size r2.size

/-! ## Rendering -/

/-- `int128_get64` in the renderer. -/
def assert64 (a : α) : Except RenderError Hwaddr :=
  match get64 a with
  | some v => .ok v
  | none => .error .assertFailed

/-- The second half of the loop body below : step over what `r` covers, and render the
ranges after it with `rest`. -/
def passRange (rest : α → α → Hwaddr → Except RenderError (FlatView α)) (inserted : FlatView α)
    (r : FlatRange α) (base remain : α) (offset : Hwaddr) : Except RenderError (FlatView α) := do
  let now := sub (min (add base remain) (addrrangeEnd r.addr)) base
  let now64 ← assert64 now
  let view ← rest (add base now) (sub remain now) (offset + now64)
  .ok (inserted ++ r :: view)

/-- The last loop of `render_memory_region`, over the ranges not yet passed : put the
pieces of `[base, base + remain)` that the view leaves free between its ranges. `fr` is
the range to insert, without its place. -/
def renderGaps (fr : FlatRange α) : FlatView α → α → α → Hwaddr → Except RenderError (FlatView α)
  | [], base, remain, offset =>
    if nz remain then .ok [{ fr with offsetInRegion := offset, addr := ⟨base, remain⟩ }] else .ok []
  | r :: view, base, remain, offset =>
    if !nz remain then .ok (r :: view)
    else if ge base (addrrangeEnd r.addr) then do
      let view ← renderGaps fr view base remain offset
      .ok (r :: view)
    else if lt base r.addr.start then do
      let now := min remain (sub r.addr.start base)
      let now64 ← assert64 now
      passRange (renderGaps fr view)
        [{ fr with offsetInRegion := offset, addr := ⟨base, now⟩ }] r (add base now)
        (sub remain now) (offset + now64)
    else passRange (renderGaps fr view) [] r base remain offset

/-- `render_memory_region`, with a bound on the depth of the recursion. -/
def renderMemoryRegion (mem : Memory) :
    ℕ → FlatView α → MrPtr → α → AddrRange α → Bool → Except RenderError (FlatView α)
  | 0, view, p, _, _, _ => if !(mem p).enabled then .ok view else .error .tooDeep
  | depth + 1, view, p, base, clip, readonly =>
    let mr := mem p
    if !mr.enabled then .ok view
    else
      let base := add base (make64 mr.addr)
      let readonly := readonly || mr.readonly
      let tmp := ⟨base, ofInt128 mr.size⟩
      if !addrrangeIntersects tmp clip then .ok view
      else
        let clip := addrrangeIntersection tmp clip
        match mr.aliasMr with
        | some orig =>
          let base := sub base (make64 (mem orig).addr)
          let base := sub base (make64 mr.aliasOffset)
          renderMemoryRegion mem depth view orig base clip readonly
        | none => do
          let view ← mr.subregions.foldlM
            (fun view subregion =>
              renderMemoryRegion mem depth view subregion base clip readonly) view
          if !mr.terminates then .ok view
          else do
            let offset ← assert64 (sub clip.start base)
            renderGaps ⟨p, offset, clip, mr.dirtyLogMask, mr.romdMode, readonly⟩ view clip.start
              clip.size offset

/-! ## Merging -/

/-- `can_merge`. -/
def canMerge (r1 r2 : FlatRange α) : Bool :=
  eq (addrrangeEnd r1.addr) r2.addr.start && r1.mr == r2.mr
    && eq (add (make64 r1.offsetInRegion) r1.addr.size) (make64 r2.offsetInRegion)
    && r1.dirtyLogMask == r2.dirtyLogMask && r1.romdMode == r2.romdMode
    && r1.readonly == r2.readonly

/-- The loops of `flatview_simplify` : `cur` is the range being grown, `last` the range as
it was that was merged into it last. -/
def simplifyFrom (cur last : FlatRange α) : FlatView α → FlatView α
  | [] => [cur]
  | r :: view =>
    if canMerge last r then
      simplifyFrom { cur with addr := ⟨cur.addr.start, add cur.addr.size r.addr.size⟩ } r view
    else cur :: simplifyFrom r r view

/-- `flatview_simplify`. -/
def flatviewSimplify : FlatView α → FlatView α
  | [] => []
  | r :: view => simplifyFrom r r view

/-- `generate_memory_topology`; the root is `NULL` in an address space being destroyed. -/
def generateMemoryTopology (mem : Memory) (depth : ℕ) (root : Option MrPtr) :
    Except RenderError (FlatView α) := do
  let view ← match root with
    | some mr => renderMemoryRegion mem depth [] mr zero ⟨zero, two64⟩ false
    | none => .ok []
  .ok (flatviewSimplify view)

end

end QemuArm
