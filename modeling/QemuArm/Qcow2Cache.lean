import QemuArm.Reach

/-!
# The metadata caches of qcow2

`qcow2-cache.c` : the cache of L2 tables and the cache of refcount blocks, each of which may
depend on the other being flushed first. The contents of the tables are of any type. The
image file has two contents for every table : what was written last, and what it was at the
last flush; all earlier ones are kept as history. Requests to the file take their results from
`io` and succeed when it is used up; a failed write may have reached the file nevertheless.

Two caches that depended on each other would flush each other for ever. The functions that
flush have the depth of their calls as an argument and are `none` when it is used up.
-/

namespace QemuArm

inductive CacheId where
  | l2Table
  | refcountBlock
  deriving DecidableEq

inductive Errno where
  | eio
  | enospc
  deriving DecidableEq

/-- The result of a request : `none` is success. -/
structure IoResult where
  errno : Option Errno
  reached : Bool

structure Qcow2CachedTable (α : Type) where
  table : α
  /-- zero for an entry that is not in use -/
  offset : ℕ
  dirty : Bool
  cacheHits : ℕ
  ref : ℕ

structure Qcow2Cache (α : Type) where
  entries : ℕ → Qcow2CachedTable α
  depends : Option CacheId
  size : ℕ
  dependsOnFlush : Bool

structure CacheState (α : Type) where
  cache : CacheId → Qcow2Cache α
  written : CacheId → ℕ → α
  stable : CacheId → ℕ → α
  io : List IoResult
  /-- history : all that `written` and `stable` were before -/
  past : List ((CacheId → ℕ → α) × (CacheId → ℕ → α))

variable {α : Type}

namespace CacheState

@[simp] def setCache (s : CacheState α) (c : CacheId) (cache : Qcow2Cache α) : CacheState α :=
  { s with cache := Function.update s.cache c cache }

def entry (s : CacheState α) (c : CacheId) (i : ℕ) : Qcow2CachedTable α := (s.cache c).entries i

def setEntry (s : CacheState α) (c : CacheId) (i : ℕ) (e : Qcow2CachedTable α) : CacheState α :=
  s.setCache c { s.cache c with entries := Function.update (s.cache c).entries i e }

section

variable (s : CacheState α) (c : CacheId) (i : ℕ) (e : Qcow2CachedTable α) (c' : CacheId)
include s c i e c'

theorem entry_setEntry (j : ℕ) :
    (s.setEntry c i e).entry c' j = if c' = c ∧ j = i then e else s.entry c' j := by
  unfold entry setEntry setCache
  by_cases hc : c' = c
  · subst hc
    by_cases hj : j = i <;> simp [hj]
  · simp [hc]

@[simp] theorem size_setEntry : ((s.setEntry c i e).cache c').size = (s.cache c').size := by
  unfold setEntry setCache
  by_cases hc : c' = c
  · subst hc
    simp
  · simp [hc]

@[simp] theorem depends_setEntry :
    ((s.setEntry c i e).cache c').depends = (s.cache c').depends := by
  unfold setEntry setCache
  by_cases hc : c' = c
  · subst hc
    simp
  · simp [hc]

end

end CacheState

/-! ## The image file -/

/-- The result of the next request. -/
def nextIo (s : CacheState α) : IoResult × CacheState α :=
  match s.io with
  | [] => (⟨none, true⟩, s)
  | r :: io => (r, { s with io := io })

def bdrvFlush (s : CacheState α) : Option Errno × CacheState α :=
  let (r, s) := nextIo s
  (r.errno,
    if r.errno = none then
      { s with
        stable := s.written
        past := (s.written, s.stable) :: s.past }
    else s)

def bdrvPwrite (c : CacheId) (offset : ℕ) (table : α) (s : CacheState α) :
    Option Errno × CacheState α :=
  let (r, s) := nextIo s
  (r.errno,
    if r.errno = none ∨ r.reached then
      { s with
        written := Function.update s.written c (Function.update (s.written c) offset table)
        past := (s.written, s.stable) :: s.past }
    else s)

/-- The check reads tables of the image and may refuse the write. -/
def qcow2PreWriteOverlapCheck (s : CacheState α) : Option Errno × CacheState α :=
  let (r, s) := nextIo s
  (r.errno, s)

/-! ## Flushing -/

/-- What the functions that flush return : the error, if any, and the state. -/
abbrev CacheResult (α : Type) := Option (Option Errno × CacheState α)

section Flush

variable (flush : CacheId → CacheState α → CacheResult α)

def qcow2CacheFlushDependency (c : CacheId) (s : CacheState α) : CacheResult α :=
  match (s.cache c).depends with
  | none => some (none, s)
  | some d =>
    match flush d s with
    | none => none
    | some (some e, s) => some (some e, s)
    | some (none, s) =>
      some (none, s.setCache c { s.cache c with depends := none, dependsOnFlush := false })

/-- What an entry has to wait for before it is written. -/
def flushBefore (c : CacheId) (s : CacheState α) : CacheResult α :=
  if (s.cache c).depends.isSome then qcow2CacheFlushDependency flush c s
  else if (s.cache c).dependsOnFlush then
    match bdrvFlush s with
    | (some e, s) => some (some e, s)
    | (none, s) => some (none, s.setCache c { s.cache c with dependsOnFlush := false })
  else some (none, s)

/-- The entry is written, if the overlap check allows it. -/
def writeEntry (c : CacheId) (i : ℕ) (s : CacheState α) : Option Errno × CacheState α :=
  match qcow2PreWriteOverlapCheck s with
  | (some e, s) => (some e, s)
  | (none, s) =>
    match bdrvPwrite c (s.entry c i).offset (s.entry c i).table s with
    | (some e, s) => (some e, s)
    | (none, s) => (none, s.setEntry c i { s.entry c i with dirty := false })

def qcow2CacheEntryFlush (c : CacheId) (i : ℕ) (s : CacheState α) : CacheResult α :=
  if (s.entry c i).dirty = false ∨ (s.entry c i).offset = 0 then some (none, s)
  else match flushBefore flush c s with
    | none => none
    | some (some e, s) => some (some e, s)
    | some (none, s) => some (writeEntry c i s)

/-- The loop over the entries goes on after an error and keeps the last one, or `-ENOSPC`. -/
def flushEntries (c : CacheId) : List ℕ → Option Errno → CacheState α → CacheResult α
  | [], result, s => some (result, s)
  | i :: is, result, s =>
    match qcow2CacheEntryFlush flush c i s with
    | none => none
    | some (ret, s) =>
      flushEntries c is (if ret ≠ none ∧ result ≠ some .enospc then ret else result) s

end Flush

/-- At most `depth` caches are flushed inside each other. -/
def qcow2CacheFlush : ℕ → CacheId → CacheState α → CacheResult α
  | 0, _, _ => none
  | depth + 1, c, s =>
    match flushEntries (qcow2CacheFlush depth) c (List.range (s.cache c).size) none s with
    | none => none
    | some (some e, s) => some (some e, s)
    | some (none, s) => some (bdrvFlush s)

section Api

variable (depth : ℕ)

def qcow2CacheSetDependency (c dependency : CacheId) (s : CacheState α) : CacheResult α :=
  let first :=
    if (s.cache dependency).depends ≠ none then
      qcow2CacheFlushDependency (qcow2CacheFlush depth) dependency s
    else some (none, s)
  match first with
  | none => none
  | some (some e, s) => some (some e, s)
  | some (none, s) =>
    let second :=
      if (s.cache c).depends ≠ none ∧ (s.cache c).depends ≠ some dependency then
        qcow2CacheFlushDependency (qcow2CacheFlush depth) c s
      else some (none, s)
    match second with
    | none => none
    | some (some e, s) => some (some e, s)
    | some (none, s) => some (none, s.setCache c { s.cache c with depends := some dependency })

def qcow2CacheDependsOnFlush (c : CacheId) (s : CacheState α) : CacheState α :=
  s.setCache c { s.cache c with dependsOnFlush := true }

/-- The loop of `qcow2_cache_find_entry_to_replace` : the index and the count of the entry
with the fewest hits so far. -/
def findMin (entries : ℕ → Qcow2CachedTable α) : List ℕ → Option ℕ × ℕ → Option ℕ × ℕ
  | [], best => best
  | i :: is, best =>
    findMin entries is
      (if (entries i).ref = 0 ∧ (entries i).cacheHits < best.2 then (some i, (entries i).cacheHits)
       else best)

/-- `INT_MAX` -/
def intMax : ℕ := 2 ^ 31 - 1

/-- The entry to replace; all entries that could be replaced lose half of their hits. -/
def qcow2CacheFindEntryToReplace (cache : Qcow2Cache α) : Option ℕ × Qcow2Cache α :=
  ((findMin cache.entries (List.range cache.size) (none, intMax)).1,
    { cache with entries := fun i =>
        if i < cache.size ∧ (cache.entries i).ref = 0 then
          { cache.entries i with cacheHits := (cache.entries i).cacheHits / 2 }
        else cache.entries i })

def findCached (cache : Qcow2Cache α) (offset : ℕ) : Option ℕ :=
  (List.range cache.size).find? fun i => (cache.entries i).offset = offset

/-- The end of `qcow2_cache_do_get` : the entry is in use by one more. -/
def foundEntry (c : CacheId) (i : ℕ) (s : CacheState α) : CacheState α :=
  s.setEntry c i { s.entry c i with
    cacheHits := (s.entry c i).cacheHits + 1, ref := (s.entry c i).ref + 1 }

/-- `qcow2_cache_get` : the entry that has the table, or an error. The program stops if all
entries are in use. -/
def qcow2CacheGet (c : CacheId) (offset : ℕ) (s : CacheState α) :
    Option (Except Errno ℕ × CacheState α) :=
  match findCached (s.cache c) offset with
  | some i => some (.ok i, foundEntry c i s)
  | none =>
    match qcow2CacheFindEntryToReplace (s.cache c) with
    | (none, _) => none
    | (some i, cache) =>
      match qcow2CacheEntryFlush (qcow2CacheFlush depth) c i (s.setCache c cache) with
      | none => none
      | some (some e, s) => some (.error e, s)
      | some (none, s) =>
        let s := s.setEntry c i { s.entry c i with offset := 0 }
        match nextIo s with
        | (⟨some e, _⟩, s) => some (.error e, s)
        | (⟨none, _⟩, s) =>
          some (.ok i, foundEntry c i (s.setEntry c i { s.entry c i with
            table := s.written c offset, cacheHits := 32, offset := offset }))

/-- `qcow2_cache_put` -/
def qcow2CachePut (c : CacheId) (i : ℕ) (s : CacheState α) : CacheState α :=
  s.setEntry c i { s.entry c i with ref := (s.entry c i).ref - 1 }

/-- The table of an entry changes and is marked as dirty. -/
@[simp] def editTable (c : CacheId) (i : ℕ) (edit : α → α) (s : CacheState α) : CacheState α :=
  s.setEntry c i { s.entry c i with table := edit (s.entry c i).table, dirty := true }

end Api

end QemuArm
