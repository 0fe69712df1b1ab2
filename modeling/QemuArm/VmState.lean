import QemuArm.Bytes

/-!
# Device state descriptions

`vmstate_save_state` writes the fields of an object in the order of a description, and then
the subsections that are needed. `vmstate_load_state` reads them back. Whether a subsection
follows is found by a look at the next bytes of the stream.

The memory of an object is a tree of places : element `i` of the field at offset `o` of the
object at `p` is at `p ++ [(o, i)]`, whether it lies in the object or behind a pointer. The
descriptions have no `field_exists` and none of the hooks, their fields are integers, buffers
and structs, and the host is little-endian.
-/

namespace QemuArm

abbrev VmPlace := List (ℕ × ℕ)

abbrev VmMem := VmPlace → Bytes

/-- An `int` from the four bytes of an `int32_t` or `uint32_t`. Loops and copies take a
negative one as 0. -/
def intOf (x : ℕ) : ℕ := (BitVec.ofNat 32 x).toInt.toNat

/-- The number of elements, from the flags. -/
inductive VmCount where
  | one
  | array (num : ℕ)
  | varrayInt32 (numOffset : ℕ)
  | varrayUint32 (numOffset : ℕ)
  | varrayUint16 (numOffset : ℕ)
  | varrayUint8 (numOffset : ℕ)

def VmCount.elems (p : VmPlace) (m : VmMem) : VmCount → ℕ
  | one => 1
  | array num => num
  | varrayInt32 o => intOf (getLe (m (p ++ [(o, 0)])) 4)
  | varrayUint32 o => intOf (getLe (m (p ++ [(o, 0)])) 4)
  | varrayUint16 o => getLe (m (p ++ [(o, 0)])) 2
  | varrayUint8 o => getLe (m (p ++ [(o, 0)])) 1

/-- A field that is not a struct. -/
inductive VmLeaf where
  | int (size : ℕ)
  | buffer (size : ℕ)
  /-- `VMS_VBUFFER`, with the factor of `VMS_MULTIPLY` or 1 -/
  | vbuffer (sizeOffset factor : ℕ)

def VmLeaf.size (p : VmPlace) (m : VmMem) : VmLeaf → ℕ
  | int size => size
  | buffer size => size
  | vbuffer o factor => intOf (getLe (m (p ++ [(o, 0)])) 4 * factor)

/-- The bytes for the stream, of which an integer has its highest first. -/
def VmLeaf.put (b : Bytes) (size : ℕ) : VmLeaf → List (BitVec 8)
  | int _ => ((List.range size).map b).reverse
  | buffer _ => (List.range size).map b
  | vbuffer _ _ => (List.range size).map b

/-- `qemu_get_buffer` : what is not in the stream stays. -/
def getBuffer (st : List (BitVec 8)) (b : Bytes) (size : ℕ) : Bytes := fun i =>
  if i < size then (st[i]?).getD (b i) else b i

/-- The bytes read from the stream, of which an integer gets zeroes beyond its end. -/
def VmLeaf.get (st : List (BitVec 8)) (b : Bytes) (size : ℕ) : VmLeaf → Bytes
  | int _ => fun i => if i < size then st.getD (size - 1 - i) 0 else b i
  | buffer _ => getBuffer st b size
  | vbuffer _ _ => getBuffer st b size

structure VmField where
  offset : ℕ
  versionId : ℕ
  count : VmCount

mutual

/-- `VMStateDescription`. -/
inductive Vmsd where
  | mk (name : List (BitVec 8)) (versionId minimumVersionId minimumVersionIdOld : ℕ)
    (fields : VmFields) (subsections : VmSubs)

inductive VmFields where
  | nil
  | leaf (field : VmField) (info : VmLeaf) (rest : VmFields)
  | struct (field : VmField) (vmsd : Vmsd) (rest : VmFields)

inductive VmSubs where
  | nil
  | cons (needed : VmMem → VmPlace → Bool) (vmsd : Vmsd) (rest : VmSubs)

end

def Vmsd.name : Vmsd → List (BitVec 8)
  | mk name _ _ _ _ _ => name

def Vmsd.versionId : Vmsd → ℕ
  | mk _ versionId _ _ _ _ => versionId

/-- `QEMU_VM_SUBSECTION`. -/
def qemuVmSubsection : BitVec 8 := 5

/-! ## Saving -/

def putBe32 (x : ℕ) : List (BitVec 8) := ((List.range 4).map (leBytes x)).reverse

/-- What stands before a subsection. The length of the name is an `uint8_t`. -/
def subsectionHeader (vmsd : Vmsd) : List (BitVec 8) :=
  let len : BitVec 8 := BitVec.ofNat 8 vmsd.name.length
  qemuVmSubsection :: len :: (vmsd.name.take len.toNat ++ putBe32 vmsd.versionId)

mutual

/-- `vmstate_save_state`. -/
def saveState (m : VmMem) : Vmsd → VmPlace → List (BitVec 8)
  | .mk _ _ _ _ fields subs, p => saveFields m fields p ++ saveSubs m subs p

def saveFields (m : VmMem) : VmFields → VmPlace → List (BitVec 8)
  | .nil, _ => []
  | .leaf f info rest, p =>
    (List.range (f.count.elems p m)).flatMap (fun i =>
      info.put (m (p ++ [(f.offset, i)])) (info.size p m)) ++ saveFields m rest p
  | .struct f vmsd rest, p =>
    (List.range (f.count.elems p m)).flatMap (fun i => saveState m vmsd (p ++ [(f.offset, i)])) ++
      saveFields m rest p

/-- `vmstate_subsection_save`. -/
def saveSubs (m : VmMem) : VmSubs → VmPlace → List (BitVec 8)
  | .nil, _ => []
  | .cons needed vmsd rest, p =>
    (if needed m p then subsectionHeader vmsd ++ saveState m vmsd p else []) ++ saveSubs m rest p

end

/-! ## Loading -/

inductive VmErr where
  | einval
  | enoent
  /-- a call of `load_state_old`, which is not there -/
  | noHook
  | endless
  deriving DecidableEq

/-- A loader for one description, with the object, the version, the stream and the memory. -/
abbrev VmLoader :=
  VmPlace → ℕ → List (BitVec 8) → VmMem → Except VmErr (List (BitVec 8) × VmMem)

/-- The name of a subsection, if the stream seems to go on with one of a section `name`. -/
def subsectionAhead (name st : List (BitVec 8)) : Option (List (BitVec 8)) :=
  if st.getD 0 0 ≠ qemuVmSubsection then none
  else
    let len := (st.getD 1 0).toNat
    let idstr := (st.drop 2).take len
    if len < name.length + 1 ∨ idstr.length ≠ len ∨ idstr.take name.length ≠ name then none
    else some idstr

def getBe32 (st : List (BitVec 8)) : ℕ :=
  getLe (fun i => st.getD (3 - i) 0) 4

/-- `vmstate_subsection_load`, with at most `fuel` rounds. The version is read into an
`uint8_t`. -/
def subsectionLoad (name : List (BitVec 8)) (subs : List (List (BitVec 8) × VmLoader))
    (p : VmPlace) : ℕ → List (BitVec 8) → VmMem → Except VmErr (List (BitVec 8) × VmMem)
  | 0, _, _ => .error .endless
  | fuel + 1, st, m =>
    match subsectionAhead name st with
    | none => .ok (st, m)
    | some idstr =>
      match subs.find? fun s => s.1 == idstr.takeWhile (· != 0) with
      | none => .error .enoent
      | some sub => do
        let st := st.drop (2 + idstr.length)
        let (st, m) ← sub.2 p (getBe32 st % 256) (st.drop 4) m
        subsectionLoad name subs p fuel st m

/-- The elements of a field that is not a struct. -/
def loadLeaf (info : VmLeaf) (size : ℕ) (p : VmPlace) (offset : ℕ) (n : ℕ)
    (st : List (BitVec 8)) (m : VmMem) : List (BitVec 8) × VmMem :=
  (List.range n).foldl (fun s i =>
    (s.1.drop size, Function.update s.2 (p ++ [(offset, i)])
      (info.get s.1 (s.2 (p ++ [(offset, i)])) size))) (st, m)

mutual

/-- `vmstate_load_state`. -/
def loadState : Vmsd → VmLoader
  | .mk name versionId minimumVersionId minimumVersionIdOld fields subs, p, version, st, m =>
    if versionId < version then .error .einval
    else if version < minimumVersionIdOld then .error .einval
    else if version < minimumVersionId then .error .noHook
    else do
      let (st, m) ← loadFields fields p version st m
      -- every subsection takes at least its marker from the stream
      subsectionLoad name (subLoaders subs) p (st.length + 1) st m

def loadFields : VmFields → VmLoader
  | .nil, _, _, st, m => .ok (st, m)
  | .leaf f info rest, p, version, st, m =>
    if f.versionId ≤ version then
      let r := loadLeaf info (info.size p m) p f.offset (f.count.elems p m) st m
      loadFields rest p version r.1 r.2
    else loadFields rest p version st m
  | .struct f vmsd rest, p, version, st, m =>
    if f.versionId ≤ version then do
      let r ← (List.range (f.count.elems p m)).foldlM (fun s i =>
        loadState vmsd (p ++ [(f.offset, i)]) vmsd.versionId s.1 s.2) (st, m)
      loadFields rest p version r.1 r.2
    else loadFields rest p version st m

/-- The table for `vmstate_get_subsection`. -/
def subLoaders : VmSubs → List (List (BitVec 8) × VmLoader)
  | .nil => []
  | .cons _ vmsd rest => (vmsd.name, loadState vmsd) :: subLoaders rest

end

end QemuArm
