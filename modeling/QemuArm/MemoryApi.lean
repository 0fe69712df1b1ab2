import QemuArm.MemoryRegion

/-!
# The memory API

The part of `memory.c` that changes the hierarchy and tells listeners : the state shared by
all calls (`MemoryState`), transactions, the update of the flat views at the outermost
commit, and one operation for every call (`memoryStep`).

Regions are initialised before they are used, so the heap holds every region of a run from
the start. A pointer is a number, and `NULL` is `none`. An operation returns `none` where the
code fails an assertion or follows a broken list : a second registration of a listener, a
second initialisation of an address space, an address space that is not there. Calls to
listeners are logged by listener, since it is registered; the direction in which the list
is walked cannot be seen there.
-/

namespace QemuArm

open Function Option

open AddressArith

/-- A pointer to an `AddressSpace`. -/
abbrev AsPtr := ℕ

/-! ## Listeners -/

/-- The callbacks of a `MemoryListener` that the functions below call. -/
inductive Callback where
  | begin
  | commit
  | regionAdd
  | regionDel
  | regionNop
  | logStart
  | logStop
  | logGlobalStart
  | logGlobalStop
  | eventfdAdd
  | eventfdDel
deriving DecidableEq

/-- `struct MemoryRegionSection`. -/
structure MemoryRegionSection where
  mr : Option MrPtr
  addressSpace : AsPtr
  offsetWithinRegion : Hwaddr
  size : Int128
  offsetWithinAddressSpace : Hwaddr
  readonly : Bool
deriving DecidableEq

/-- A call to a listener, with its arguments. -/
structure ListenerCall where
  callback : Callback
  sec : Option MemoryRegionSection
  fd : Option (Bool × Hwaddr × ℕ)
deriving DecidableEq

/-- The listener that each address space has, and all others. -/
inductive ListenerPtr where
  | dispatch (as : AsPtr)
  | other (n : ℕ)
deriving DecidableEq

/-- `struct MemoryListener`, with the callbacks that are not `NULL` and the calls made to
them. -/
structure MemoryListener where
  ptr : ListenerPtr
  priority : ℤ
  addressSpaceFilter : Option AsPtr
  has : Callback → Bool
  log : List ListenerCall

namespace MemoryListener

def call (l : MemoryListener) (c : ListenerCall) : MemoryListener :=
  if l.has c.callback then { l with log := l.log ++ [c] } else l

/-- `memory_listener_match`. -/
def accepts (l : MemoryListener) (as : AsPtr) : Bool :=
  match l.addressSpaceFilter with
  | none => true
  | some f => f == as

end MemoryListener

/-- `MEMORY_LISTENER_CALL_GLOBAL`. -/
def memoryListenerCallGlobal (cb : Callback) (ls : List MemoryListener) : List MemoryListener :=
  ls.map fun l => l.call ⟨cb, none, none⟩

/-- `MEMORY_LISTENER_CALL`. -/
def memoryListenerCall (as : AsPtr) (c : ListenerCall) (ls : List MemoryListener) :
    List MemoryListener :=
  ls.map fun l => if l.accepts as then l.call c else l

/-- The section of a range, as `MEMORY_LISTENER_UPDATE_REGION` makes it. -/
def sectionOf (as : AsPtr) (fr : FlatRange Int128) : Option MemoryRegionSection := do
  let start ← Int128.get64 fr.addr.start
  some ⟨some fr.mr, as, fr.offsetInRegion, fr.addr.size, start, fr.readonly⟩

/-- `MEMORY_LISTENER_UPDATE_REGION`. -/
def memoryListenerUpdateRegion (as : AsPtr) (ls : List MemoryListener)
    (c : Callback × FlatRange Int128) : Option (List MemoryListener) := do
  let sec ← sectionOf as c.2
  some (memoryListenerCall as ⟨c.1, some sec, none⟩ ls)

/-! ## Updating an address space -/

/-- `flatrange_equal`. -/
def flatrangeEqual (a b : FlatRange Int128) : Bool :=
  a.mr == b.mr && addrrangeEqual a.addr b.addr && a.offsetInRegion == b.offsetInRegion
    && a.romdMode == b.romdMode && a.readonly == b.readonly

/-- A range in both views, unchanged except for logging. -/
def unchangedCalls (frold frnew : FlatRange Int128) : List (Callback × FlatRange Int128) :=
  (.regionNop, frnew) ::
    if frold.dirtyLogMask ≠ 0 ∧ frnew.dirtyLogMask = 0 then [(.logStop, frnew)]
    else if frnew.dirtyLogMask ≠ 0 ∧ frold.dirtyLogMask = 0 then [(.logStart, frnew)]
    else []

/-- The loop of `address_space_update_topology_pass` while `frold` is the next old range;
`rest` goes on with the old range after it. -/
def topologyPassFrom (adding : Bool) (frold : FlatRange Int128)
    (rest : FlatView Int128 → List (Callback × FlatRange Int128)) :
    FlatView Int128 → List (Callback × FlatRange Int128)
  | [] => (if adding then [] else [(.regionDel, frold)]) ++ rest []
  | frnew :: new =>
    if lt frold.addr.start frnew.addr.start
        || (eq frold.addr.start frnew.addr.start && !flatrangeEqual frold frnew) then
      (if adding then [] else [(.regionDel, frold)]) ++ rest (frnew :: new)
    else if flatrangeEqual frold frnew then
      (if adding then unchangedCalls frold frnew else []) ++ rest new
    else (if adding then [(.regionAdd, frnew)] else []) ++ topologyPassFrom adding frold rest new

/-- The calls of `address_space_update_topology_pass`, in order. -/
def topologyPass (adding : Bool) :
    FlatView Int128 → FlatView Int128 → List (Callback × FlatRange Int128)
  | [], new => if adding then new.map fun frnew => (.regionAdd, frnew) else []
  | frold :: old, new => topologyPassFrom adding frold (topologyPass adding old) new

/-- `memory_region_ioeventfd_before`. -/
def memoryRegionIoeventfdBefore (a b : MemoryRegionIoeventfd) : Bool :=
  if lt a.addr.start b.addr.start then true
  else if lt b.addr.start a.addr.start then false
  else if lt a.addr.size b.addr.size then true
  else if lt b.addr.size a.addr.size then false
  else if !a.matchData && b.matchData then true
  else if a.matchData && !b.matchData then false
  else if a.matchData && decide (a.data < b.data) then true
  else if a.matchData && decide (b.data < a.data) then false
  else decide (a.e < b.e)

/-- `memory_region_ioeventfd_equal`. -/
def memoryRegionIoeventfdEqual (a b : MemoryRegionIoeventfd) : Bool :=
  !memoryRegionIoeventfdBefore a b && !memoryRegionIoeventfdBefore b a

/-- The loop of `address_space_add_del_ioeventfds` while `fdold` is the next old one. -/
def ioeventfdCallsFrom (fdold : MemoryRegionIoeventfd)
    (rest : List MemoryRegionIoeventfd → List (Callback × MemoryRegionIoeventfd)) :
    List MemoryRegionIoeventfd → List (Callback × MemoryRegionIoeventfd)
  | [] => (.eventfdDel, fdold) :: rest []
  | fdnew :: new =>
    if memoryRegionIoeventfdBefore fdold fdnew then (.eventfdDel, fdold) :: rest (fdnew :: new)
    else if memoryRegionIoeventfdBefore fdnew fdold then
      (.eventfdAdd, fdnew) :: ioeventfdCallsFrom fdold rest new
    else rest new

/-- The calls of `address_space_add_del_ioeventfds`, in order. -/
def ioeventfdCalls :
    List MemoryRegionIoeventfd → List MemoryRegionIoeventfd →
      List (Callback × MemoryRegionIoeventfd)
  | [], new => new.map fun fdnew => (.eventfdAdd, fdnew)
  | fdold :: old, new => ioeventfdCallsFrom fdold (ioeventfdCalls old) new

def ioeventfdCall (as : AsPtr) (ls : List MemoryListener) (c : Callback × MemoryRegionIoeventfd) :
    Option (List MemoryListener) := do
  let start ← Int128.get64 c.2.addr.start
  some (memoryListenerCall as
    ⟨c.1, some ⟨none, as, 0, c.2.addr.size, start, false⟩,
      some (c.2.matchData, c.2.data, c.2.e)⟩ ls)

def addrrangeShift (range : AddrRange Int128) (delta : Int128) : AddrRange Int128 :=
  ⟨add range.start delta, range.size⟩

/-- The ioeventfds of a view, at their addresses in the address space. -/
def ioeventfdsOf (mem : Memory) (view : FlatView Int128) : List MemoryRegionIoeventfd :=
  view.flatMap fun fr => (mem fr.mr).ioeventfds.filterMap fun fd =>
    let tmp := addrrangeShift fd.addr (sub fr.addr.start (make64 fr.offsetInRegion))
    if addrrangeIntersects fr.addr tmp then some { fd with addr := tmp } else none

/-- `struct AddressSpace`. The root is `NULL` while the address space is being destroyed. -/
structure AddressSpace where
  ptr : AsPtr
  root : Option MrPtr
  currentMap : FlatView Int128
  ioeventfds : List MemoryRegionIoeventfd

/-- `address_space_update_ioeventfds`. -/
def addressSpaceUpdateIoeventfds (mem : Memory) (as : AddressSpace) (ls : List MemoryListener) :
    Option (AddressSpace × List MemoryListener) := do
  let fds := ioeventfdsOf mem as.currentMap
  let ls ← (ioeventfdCalls as.ioeventfds fds).foldlM (ioeventfdCall as.ptr) ls
  some ({ as with ioeventfds := fds }, ls)

/-- `address_space_update_topology_pass`. -/
def addressSpaceUpdateTopologyPass (as : AsPtr) (old new : FlatView Int128) (adding : Bool)
    (ls : List MemoryListener) : Option (List MemoryListener) :=
  (topologyPass adding old new).foldlM (memoryListenerUpdateRegion as) ls

/-- `address_space_update_topology`, with the bound `stack` on the depth of rendering. -/
def addressSpaceUpdateTopology (stack : ℕ) (mem : Memory) (as : AddressSpace)
    (ls : List MemoryListener) : Option (AddressSpace × List MemoryListener) := do
  let new ← (generateMemoryTopology mem stack as.root).toOption
  let ls ← addressSpaceUpdateTopologyPass as.ptr as.currentMap new false ls
  let ls ← addressSpaceUpdateTopologyPass as.ptr as.currentMap new true ls
  addressSpaceUpdateIoeventfds mem { as with currentMap := new } ls

/-- The loop over `address_spaces` at a commit. -/
def addressSpacesUpdate (stack : ℕ) (mem : Memory) :
    List AddressSpace → List MemoryListener → Option (List AddressSpace × List MemoryListener)
  | [], ls => some ([], ls)
  | as :: spaces, ls => do
    let (as, ls) ← addressSpaceUpdateTopology stack mem as ls
    let (spaces, ls) ← addressSpacesUpdate stack mem spaces ls
    some (as :: spaces, ls)

/-! ## Regions in a hierarchy -/

/-- A heap in which a region is in the list of its parent, once, and in no other. -/
structure Regions where
  mem : Memory
  parent_of_mem : ∀ p q, q ∈ (mem p).subregions → (mem q).parent = some p
  nodup : ∀ p, (mem p).subregions.Nodup

/-- The loop that finds the place of a subregion in the list : before the first one of no
higher priority. -/
def insertSubregion (mem : Memory) (priority : ℤ) (subregion : MrPtr) : List MrPtr → List MrPtr
  | [] => [subregion]
  | other :: rest =>
    if (mem other).priority ≤ priority then subregion :: other :: rest
    else other :: insertSubregion mem priority subregion rest

theorem insertSubregion_perm (mem : Memory) (priority : ℤ) (subregion : MrPtr) (l : List MrPtr) :
    (insertSubregion mem priority subregion l).Perm (subregion :: l) := by
  induction l with
  | nil => exact List.Perm.refl _
  | cons other rest ih =>
    rw [insertSubregion]
    split
    · exact List.Perm.refl _
    · exact (ih.cons other).trans (List.Perm.swap subregion other rest)

namespace Regions

theorem notMem_of_orphan (r : Regions) {q : MrPtr} (h : (r.mem q).parent = none) (p : MrPtr) :
    q ∉ (r.mem p).subregions := fun hq => by
  rw [r.parent_of_mem p q hq] at h
  cases h

/-- Change a region, but not its place in the hierarchy. -/
def modify (r : Regions) (p : MrPtr) (f : MemoryRegion → MemoryRegion)
    (hf : ∀ mr, (f mr).parent = mr.parent ∧ (f mr).subregions = mr.subregions) : Regions :=
  have hsame : ∀ q, (update r.mem p (f (r.mem p)) q).parent = (r.mem q).parent ∧
      (update r.mem p (f (r.mem p)) q).subregions = (r.mem q).subregions := by
    intro q
    by_cases hq : q = p
    · rw [hq, update_self]
      exact hf (r.mem p)
    · rw [update_of_ne hq]
      exact ⟨rfl, rfl⟩
  { mem := update r.mem p (f (r.mem p))
    parent_of_mem := fun q s hs => by
      rw [(hsame q).2] at hs
      rw [(hsame s).1]
      exact r.parent_of_mem q s hs
    nodup := fun q => by
      rw [(hsame q).2]
      exact r.nodup q }

/-- The heap with `subregion` put under `mr`. -/
def linkMem (mem : Memory) (mr : MrPtr) (offset : Hwaddr) (subregion : MrPtr) : Memory :=
  let mem := update mem subregion { mem subregion with parent := some mr, addr := offset }
  update mem mr { mem mr with
    subregions := insertSubregion mem (mem subregion).priority subregion (mem mr).subregions }

/-- The heap with `subregion` taken from under `mr`. -/
def unlinkMem (mem : Memory) (mr subregion : MrPtr) : Memory :=
  let mem := update mem subregion { mem subregion with parent := none }
  update mem mr { mem mr with subregions := (mem mr).subregions.erase subregion }

section

variable (mem : Memory) (mr : MrPtr) (offset : Hwaddr) (subregion q : MrPtr)
include mem mr offset subregion q

theorem linkMem_parent :
    (linkMem mem mr offset subregion q).parent =
      if q = subregion then some mr else (mem q).parent := by
  simp only [linkMem, update_apply]
  split_ifs <;> simp_all

theorem linkMem_subregions :
    (linkMem mem mr offset subregion q).subregions.Perm
      (if q = mr then subregion :: (mem mr).subregions else (mem q).subregions) := by
  simp only [linkMem, update_apply]
  split_ifs <;> simp_all [insertSubregion_perm]

theorem linkMem_enabled : (linkMem mem mr offset subregion q).enabled = (mem q).enabled := by
  simp only [linkMem, update_apply]
  split_ifs <;> simp_all

theorem linkMem_addr :
    (linkMem mem mr offset subregion q).addr = if q = subregion then offset else (mem q).addr := by
  simp only [linkMem, update_apply]
  split_ifs <;> simp_all

end

section

variable (mem : Memory) (mr subregion q : MrPtr)
include mem mr subregion q

theorem unlinkMem_parent :
    (unlinkMem mem mr subregion q).parent = if q = subregion then none else (mem q).parent := by
  simp only [unlinkMem, update_apply]
  split_ifs <;> simp_all

theorem unlinkMem_subregions :
    (unlinkMem mem mr subregion q).subregions =
      if q = mr then (mem mr).subregions.erase subregion else (mem q).subregions := by
  simp only [unlinkMem, update_apply]
  split_ifs <;> simp_all

theorem unlinkMem_enabled : (unlinkMem mem mr subregion q).enabled = (mem q).enabled := by
  simp only [unlinkMem, update_apply]
  split_ifs <;> simp_all

theorem unlinkMem_addr : (unlinkMem mem mr subregion q).addr = (mem q).addr := by
  simp only [unlinkMem, update_apply]
  split_ifs <;> simp_all

end

def link (r : Regions) (mr : MrPtr) (offset : Hwaddr) (subregion : MrPtr)
    (h : (r.mem subregion).parent = none) : Regions where
  mem := linkMem r.mem mr offset subregion
  parent_of_mem p q hq := by
    rw [(linkMem_subregions r.mem mr offset subregion p).mem_iff] at hq
    rw [linkMem_parent]
    split_ifs with hs
    · by_cases hp : p = mr
      · rw [hp]
      · rw [if_neg hp, hs] at hq
        exact absurd hq (r.notMem_of_orphan h p)
    · refine r.parent_of_mem p q ?_
      split at hq
      · rename_i hp
        rw [hp]
        exact (List.mem_cons.1 hq).resolve_left hs
      · exact hq
  nodup p := by
    rw [(linkMem_subregions r.mem mr offset subregion p).nodup_iff]
    split
    · exact List.nodup_cons.2 ⟨r.notMem_of_orphan h mr, r.nodup mr⟩
    · exact r.nodup p

def unlink (r : Regions) (mr subregion : MrPtr) (h : (r.mem subregion).parent = some mr) :
    Regions where
  mem := unlinkMem r.mem mr subregion
  parent_of_mem p q hq := by
    rw [unlinkMem_subregions] at hq
    rw [unlinkMem_parent]
    split at hq
    · rename_i hp
      obtain ⟨hne, hmem⟩ := (r.nodup mr).mem_erase_iff.1 hq
      rw [if_neg hne, hp]
      exact r.parent_of_mem mr q hmem
    · rename_i hp
      have hpar := r.parent_of_mem p q hq
      rw [if_neg, hpar]
      rintro rfl
      rw [h] at hpar
      cases hpar
      exact hp rfl
  nodup p := by
    rw [unlinkMem_subregions]
    split
    · exact (r.nodup mr).erase subregion
    · exact r.nodup p

end Regions

/-! ## The state -/

/-- The static variables of `memory.c`, and the regions. -/
structure MemoryState where
  regions : Regions
  spaces : List AddressSpace
  listeners : List MemoryListener
  /-- `memory_region_transaction_depth`, an `unsigned` : the transactions that are open. Each is a
  call in progress, so that the stack ends long before they are `2 ^ 32`. -/
  depth : ℕ
  pending : Bool
  globalDirtyLog : Bool

namespace MemoryState

abbrev mem (st : MemoryState) : Memory := st.regions.mem

/-- Change a region, but not its place in the hierarchy. -/
def modify (st : MemoryState) (p : MrPtr) (f : MemoryRegion → MemoryRegion)
    (hf : ∀ mr, (f mr).parent = mr.parent ∧ (f mr).subregions = mr.subregions) : MemoryState :=
  { st with regions := st.regions.modify p f hf }

/-- `memory_region_update_pending |= b`. -/
def setPending (st : MemoryState) (b : Bool) : MemoryState := { st with pending := st.pending || b }

end MemoryState

/-! ## Transactions -/

def memoryRegionTransactionBegin (st : MemoryState) : MemoryState :=
  { st with depth := st.depth + 1 }

def memoryRegionTransactionCommit (stack : ℕ) (st : MemoryState) : Option MemoryState :=
  match st.depth with
  | 0 => none
  | depth + 1 =>
    if depth = 0 ∧ st.pending then do
      let ls := memoryListenerCallGlobal .begin st.listeners
      let (spaces, ls) ← addressSpacesUpdate stack st.mem st.spaces ls
      some { st with
        depth := 0, pending := false, spaces, listeners := memoryListenerCallGlobal .commit ls }
    else some { st with depth }

/-- The body of a call, in a transaction of its own. -/
def inTransaction (stack : ℕ) (body : MemoryState → Option MemoryState) (st : MemoryState) :
    Option MemoryState := do
  let st ← body (memoryRegionTransactionBegin st)
  memoryRegionTransactionCommit stack st

/-! ## Operations on regions -/

/-- The calls that change one region in place, and say that an update is pending when the
region is enabled. -/
def updateRegion (stack : ℕ) (p : MrPtr) (f : MemoryRegion → MemoryRegion)
    (hf : ∀ mr, (f mr).parent = mr.parent ∧ (f mr).subregions = mr.subregions) (st : MemoryState) :
    Option MemoryState :=
  inTransaction stack (fun st => some ((st.modify p f hf).setPending (st.mem p).enabled)) st

def memoryRegionSetLog (stack : ℕ) (p : MrPtr) (log : Bool) (client : ℕ) (st : MemoryState) :
    Option MemoryState :=
  let mask : BitVec 8 := 1#8 <<< client
  updateRegion stack p (fun mr => { mr with
    dirtyLogMask := (mr.dirtyLogMask &&& ~~~mask) ||| if log then mask else 0 })
    (fun _ => ⟨rfl, rfl⟩) st

def memoryRegionSetReadonly (stack : ℕ) (p : MrPtr) (readonly : Bool) (st : MemoryState) :
    Option MemoryState :=
  if (st.mem p).readonly ≠ readonly then
    updateRegion stack p (fun mr => { mr with readonly }) (fun _ => ⟨rfl, rfl⟩) st
  else some st

def memoryRegionRomDeviceSetRomd (stack : ℕ) (p : MrPtr) (romdMode : Bool) (st : MemoryState) :
    Option MemoryState :=
  if (st.mem p).romdMode ≠ romdMode then
    updateRegion stack p (fun mr => { mr with romdMode }) (fun _ => ⟨rfl, rfl⟩) st
  else some st

def memoryRegionSetAliasOffset (stack : ℕ) (p : MrPtr) (offset : Hwaddr) (st : MemoryState) :
    Option MemoryState :=
  if (st.mem p).aliasMr.isNone then none
  else if offset = (st.mem p).aliasOffset then some st
  else updateRegion stack p (fun mr => { mr with aliasOffset := offset }) (fun _ => ⟨rfl, rfl⟩) st

def bswap16 (x : BitVec 16) : BitVec 16 := x.extractLsb' 0 8 ++ x.extractLsb' 8 8

def bswap32 (x : BitVec 32) : BitVec 32 :=
  bswap16 (x.extractLsb' 0 16) ++ bswap16 (x.extractLsb' 16 16)

def bswap64 (x : BitVec 64) : BitVec 64 :=
  bswap32 (x.extractLsb' 0 32) ++ bswap32 (x.extractLsb' 32 32)

/-- `adjust_endianness`; the sizes it does not know end in `abort`. -/
def adjustEndianness (mr : MemoryRegion) (data : Hwaddr) (size : BitVec 32) : Option Hwaddr :=
  if !mr.wrongEndianness then some data
  else if size = 1 then some data
  else if size = 2 then some ((bswap16 (data.setWidth 16)).setWidth 64)
  else if size = 4 then some ((bswap32 (data.setWidth 32)).setWidth 64)
  else if size = 8 then some (bswap64 data)
  else none

/-- The place of an ioeventfd in the sorted list of a region. -/
def insertIoeventfd (mrfd : MemoryRegionIoeventfd) :
    List MemoryRegionIoeventfd → List MemoryRegionIoeventfd
  | [] => [mrfd]
  | fd :: fds =>
    if memoryRegionIoeventfdBefore mrfd fd then mrfd :: fd :: fds
    else fd :: insertIoeventfd mrfd fds

def memoryRegionAddEventfd (stack : ℕ) (p : MrPtr) (addr : Hwaddr) (size : BitVec 32)
    (matchData : Bool) (data : Hwaddr) (e : ℕ) (st : MemoryState) : Option MemoryState := do
  let data ← adjustEndianness (st.mem p) data size
  let mrfd := ⟨⟨Int128.make64 addr, Int128.make64 (size.setWidth 64)⟩, matchData, data, e⟩
  updateRegion stack p (fun mr => { mr with ioeventfds := insertIoeventfd mrfd mr.ioeventfds })
    (fun _ => ⟨rfl, rfl⟩) st

def memoryRegionDelEventfd (stack : ℕ) (p : MrPtr) (addr : Hwaddr) (size : BitVec 32)
    (matchData : Bool) (data : Hwaddr) (e : ℕ) (st : MemoryState) : Option MemoryState := do
  let data ← adjustEndianness (st.mem p) data size
  let mrfd := ⟨⟨Int128.make64 addr, Int128.make64 (size.setWidth 64)⟩, matchData, data, e⟩
  if (st.mem p).ioeventfds.any (memoryRegionIoeventfdEqual mrfd) then
    updateRegion stack p
      (fun mr => { mr with ioeventfds := mr.ioeventfds.eraseP (memoryRegionIoeventfdEqual mrfd) })
      (fun _ => ⟨rfl, rfl⟩) st
  else none

/-- The overlap test of the source changes nothing and is left out. -/
def memoryRegionAddSubregionCommon (stack : ℕ) (mr : MrPtr) (offset : Hwaddr) (subregion : MrPtr) :
    MemoryState → Option MemoryState :=
  inTransaction stack fun st =>
    if h : (st.mem subregion).parent = none then
      let st := { st with regions := st.regions.link mr offset subregion h }
      some (st.setPending ((st.mem mr).enabled && (st.mem subregion).enabled))
    else none

def memoryRegionAddSubregion (stack : ℕ) (mr : MrPtr) (offset : Hwaddr) (subregion : MrPtr)
    (st : MemoryState) : Option MemoryState :=
  memoryRegionAddSubregionCommon stack mr offset subregion
    (st.modify subregion (fun mr => { mr with mayOverlap := false, priority := 0 })
      fun _ => ⟨rfl, rfl⟩)

def memoryRegionAddSubregionOverlap (stack : ℕ) (mr : MrPtr) (offset : Hwaddr) (subregion : MrPtr)
    (priority : ℤ) (st : MemoryState) : Option MemoryState :=
  memoryRegionAddSubregionCommon stack mr offset subregion
    (st.modify subregion (fun mr => { mr with mayOverlap := true, priority }) fun _ => ⟨rfl, rfl⟩)

def memoryRegionDelSubregion (stack : ℕ) (mr subregion : MrPtr) :
    MemoryState → Option MemoryState :=
  inTransaction stack fun st =>
    if h : (st.mem subregion).parent = some mr then
      let st := { st with regions := st.regions.unlink mr subregion h }
      some (st.setPending ((st.mem mr).enabled && (st.mem subregion).enabled))
    else none

def memoryRegionSetEnabled (stack : ℕ) (p : MrPtr) (enabled : Bool) (st : MemoryState) :
    Option MemoryState :=
  if enabled = (st.mem p).enabled then some st
  else inTransaction stack (fun st =>
    some ((st.modify p (fun mr => { mr with enabled }) fun _ => ⟨rfl, rfl⟩).setPending true)) st

def memoryRegionSetAddress (stack : ℕ) (p : MrPtr) (addr : Hwaddr) (st : MemoryState) :
    Option MemoryState :=
  let setAddr := st.modify p (fun mr => { mr with addr }) fun _ => ⟨rfl, rfl⟩
  if addr = (st.mem p).addr then some setAddr
  else match (st.mem p).parent with
    | none => some setAddr
    | some parent =>
      let priority := (st.mem p).priority
      let mayOverlap := (st.mem p).mayOverlap
      inTransaction stack (fun st => do
        let st ← memoryRegionDelSubregion stack parent p st
        if mayOverlap then memoryRegionAddSubregionOverlap stack parent addr p priority st
        else memoryRegionAddSubregion stack parent addr p st) st

/-! ## Listeners and address spaces -/

/-- `listener_add_address_space`. -/
def listenerAddAddressSpace (globalDirtyLog : Bool) (l : MemoryListener) (as : AddressSpace) :
    Option MemoryListener :=
  if !l.accepts as.ptr then some l
  else
    let l := if globalDirtyLog then l.call ⟨.logGlobalStart, none, none⟩ else l
    as.currentMap.foldlM (fun l fr => do
      let sec ← sectionOf as.ptr fr
      some (l.call ⟨.regionAdd, some sec, none⟩)) l

/-- Before the first listener of a higher priority. -/
def insertListenerBefore (l : MemoryListener) : List MemoryListener → List MemoryListener
  | [] => [l]
  | other :: ls =>
    if l.priority < other.priority then l :: other :: ls else other :: insertListenerBefore l ls

/-- The place of a listener in the list, which is sorted by priority. -/
def insertListener (l : MemoryListener) (ls : List MemoryListener) : List MemoryListener :=
  match ls.getLast? with
  | none => [l]
  | some last => if last.priority ≤ l.priority then ls ++ [l] else insertListenerBefore l ls

def memoryListenerRegister (ptr : ListenerPtr) (priority : ℤ) (filter : Option AsPtr)
    (has : Callback → Bool) (st : MemoryState) : Option MemoryState :=
  if st.listeners.any fun l => l.ptr == ptr then none
  else do
    let l ← st.spaces.foldlM (listenerAddAddressSpace st.globalDirtyLog)
      ⟨ptr, priority, filter, has, []⟩
    some { st with listeners := insertListener l st.listeners }

def memoryListenerUnregister (ptr : ListenerPtr) (st : MemoryState) : Option MemoryState :=
  if st.listeners.any fun l => l.ptr == ptr then
    some { st with listeners := st.listeners.filter fun l => l.ptr != ptr }
  else none

/-- The callbacks of the listener that fills the dispatch tree of an address space. -/
def dispatchHas : Callback → Bool
  | .begin | .commit | .regionAdd | .regionNop => true
  | _ => false

def addressSpaceInit (stack : ℕ) (as : AsPtr) (root : MrPtr) (st : MemoryState) :
    Option MemoryState :=
  if st.spaces.any fun s => s.ptr == as then none
  else inTransaction stack (fun st => do
    let st := { st with spaces := st.spaces ++ [⟨as, some root, [], []⟩] }
    let st ← memoryListenerRegister (.dispatch as) 0 (some as) dispatchHas st
    some (st.setPending (st.mem root).enabled)) st

/-- `as->root = NULL`. -/
def AddressSpace.clearRoot (as : AsPtr) (s : AddressSpace) : AddressSpace :=
  if s.ptr = as then { s with root := none } else s

def addressSpaceDestroy (stack : ℕ) (as : AsPtr) (st : MemoryState) : Option MemoryState :=
  if st.spaces.any fun s => s.ptr == as then do
    let st ← inTransaction stack
      (fun st => some { st with spaces := st.spaces.map (AddressSpace.clearRoot as) }) st
    let st := { st with spaces := st.spaces.filter fun s => s.ptr != as }
    memoryListenerUnregister (.dispatch as) st
  else none

def memoryGlobalDirtyLogStart (st : MemoryState) : MemoryState :=
  { st with globalDirtyLog := true
            listeners := memoryListenerCallGlobal .logGlobalStart st.listeners }

def memoryGlobalDirtyLogStop (st : MemoryState) : MemoryState :=
  { st with globalDirtyLog := false
            listeners := memoryListenerCallGlobal .logGlobalStop st.listeners }

/-! ## Runs -/

/-- The calls of the memory API. -/
inductive MemoryOp where
  | transactionBegin
  | transactionCommit
  | setLog (p : MrPtr) (log : Bool) (client : ℕ)
  | setReadonly (p : MrPtr) (readonly : Bool)
  | romDeviceSetRomd (p : MrPtr) (romdMode : Bool)
  | setAliasOffset (p : MrPtr) (offset : Hwaddr)
  | addEventfd (p : MrPtr) (addr : Hwaddr) (size : BitVec 32) (matchData : Bool) (data : Hwaddr)
      (e : ℕ)
  | delEventfd (p : MrPtr) (addr : Hwaddr) (size : BitVec 32) (matchData : Bool) (data : Hwaddr)
      (e : ℕ)
  | addSubregion (mr : MrPtr) (offset : Hwaddr) (subregion : MrPtr)
  | addSubregionOverlap (mr : MrPtr) (offset : Hwaddr) (subregion : MrPtr) (priority : ℤ)
  | delSubregion (mr subregion : MrPtr)
  | setEnabled (p : MrPtr) (enabled : Bool)
  | setAddress (p : MrPtr) (addr : Hwaddr)
  | listenerRegister (n : ℕ) (priority : ℤ) (filter : Option AsPtr) (has : Callback → Bool)
  | listenerUnregister (n : ℕ)
  | globalDirtyLogStart
  | globalDirtyLogStop
  | addressSpaceInit (as : AsPtr) (root : MrPtr)
  | addressSpaceDestroy (as : AsPtr)

/-- One call. -/
def memoryStep (stack : ℕ) : MemoryOp → MemoryState → Option MemoryState
  | .transactionBegin, st => some (memoryRegionTransactionBegin st)
  | .transactionCommit, st => memoryRegionTransactionCommit stack st
  | .setLog p log client, st => memoryRegionSetLog stack p log client st
  | .setReadonly p readonly, st => memoryRegionSetReadonly stack p readonly st
  | .romDeviceSetRomd p romdMode, st => memoryRegionRomDeviceSetRomd stack p romdMode st
  | .setAliasOffset p offset, st => memoryRegionSetAliasOffset stack p offset st
  | .addEventfd p addr size matchData data e, st =>
    memoryRegionAddEventfd stack p addr size matchData data e st
  | .delEventfd p addr size matchData data e, st =>
    memoryRegionDelEventfd stack p addr size matchData data e st
  | .addSubregion mr offset subregion, st => memoryRegionAddSubregion stack mr offset subregion st
  | .addSubregionOverlap mr offset subregion priority, st =>
    memoryRegionAddSubregionOverlap stack mr offset subregion priority st
  | .delSubregion mr subregion, st => memoryRegionDelSubregion stack mr subregion st
  | .setEnabled p enabled, st => memoryRegionSetEnabled stack p enabled st
  | .setAddress p addr, st => memoryRegionSetAddress stack p addr st
  | .listenerRegister n priority filter has, st =>
    memoryListenerRegister (.other n) priority filter has st
  | .listenerUnregister n, st => memoryListenerUnregister (.other n) st
  | .globalDirtyLogStart, st => some (memoryGlobalDirtyLogStart st)
  | .globalDirtyLogStop, st => some (memoryGlobalDirtyLogStop st)
  | .addressSpaceInit as root, st => addressSpaceInit stack as root st
  | .addressSpaceDestroy as, st => addressSpaceDestroy stack as st

/-- The calls that change one region where it is. -/
def MemoryOp.InPlace : MemoryOp → Prop
  | .setLog .. | .setReadonly .. | .romDeviceSetRomd .. | .setAliasOffset .. | .addEventfd ..
  | .delEventfd .. => True
  | _ => False

/-- Such a call does nothing, or says that an update is pending when the region is enabled. -/
theorem memoryStep_inPlace {stack : ℕ} {st st' : MemoryState} {op : MemoryOp}
    (h : memoryStep stack op st = some st') (hop : op.InPlace) :
    st' = st ∨ ∃ p f hf, updateRegion stack p f hf st = some st' ∧
      ∀ mr, (f mr).enabled = mr.enabled := by
  cases op with
  | setLog p log client => exact .inr ⟨p, _, _, h, fun _ => rfl⟩
  | setReadonly p readonly =>
    simp only [memoryStep, memoryRegionSetReadonly] at h
    split at h
    · exact .inr ⟨p, _, _, h, fun _ => rfl⟩
    · exact .inl (some.inj h).symm
  | romDeviceSetRomd p romdMode =>
    simp only [memoryStep, memoryRegionRomDeviceSetRomd] at h
    split at h
    · exact .inr ⟨p, _, _, h, fun _ => rfl⟩
    · exact .inl (some.inj h).symm
  | setAliasOffset p offset =>
    simp only [memoryStep, memoryRegionSetAliasOffset] at h
    split at h
    · cases h
    split at h
    · exact .inl (some.inj h).symm
    · exact .inr ⟨p, _, _, h, fun _ => rfl⟩
  | addEventfd p addr size matchData data e =>
    simp only [memoryStep, memoryRegionAddEventfd, bind_eq_bind, bind_eq_some_iff] at h
    obtain ⟨data', -, h⟩ := h
    exact .inr ⟨p, _, _, h, fun _ => rfl⟩
  | delEventfd p addr size matchData data e =>
    simp only [memoryStep, memoryRegionDelEventfd, bind_eq_bind, bind_eq_some_iff] at h
    obtain ⟨data', -, h⟩ := h
    split at h
    · exact .inr ⟨p, _, _, h, fun _ => rfl⟩
    · cases h
  | _ => exact absurd hop id

/-- Regions that are initialised and in no hierarchy yet. -/
def Regions.ofInit (mem : Memory)
    (h : ∀ p, (mem p).parent = none ∧ (mem p).subregions = []) : Regions where
  mem
  parent_of_mem p q hq := by
    rw [(h p).2] at hq
    cases hq
  nodup p := by
    rw [(h p).2]
    exact List.nodup_nil

/-- Before the first call. -/
def MemoryState.init (mem : Memory) (h : ∀ p, (mem p).parent = none ∧ (mem p).subregions = []) :
    MemoryState :=
  ⟨.ofInit mem h, [], [], 0, false, false⟩

/-- A bus and devices, not yet connected. -/
def deviceMemory : Memory
  | 0 => memoryRegionInit 0x10000
  | _ => memoryRegionInitIo 0x1000

theorem deviceMemory_unlinked (p : MrPtr) :
    (deviceMemory p).parent = none ∧ (deviceMemory p).subregions = [] := by
  unfold deviceMemory
  split <;> exact ⟨rfl, rfl⟩

end QemuArm
