import QemuArm.Qcow2CacheFlush

/-!
# The order of metadata writes

The callers of the caches : `update_refcount` increases and decreases refcounts,
`qcow2_alloc_cluster_link_l2` and the compressed writes put references to new clusters in L2
tables, discards drop them. The contents of a table are the updates it has seen. A number
names one reference to a cluster and the increase that counts it.

A table in the file that refers to a cluster has to come after the refcount of the cluster,
and a decreased refcount after the table that dropped the reference (`CrashSafe`).
`metadata_order` : this holds at every moment as long as no call of
`qcow2_cache_set_dependency` fails, and no increase for data that is put behind other compressed
data. The callers ignore both results, and `metadata_order_fail` is a run where one should not
have. The two caches never depend on each other, whatever fails.
-/

namespace QemuArm

open List Option Finset Keeps

/-- An update of a refcount block or of an L2 table, for one reference. -/
inductive TableEdit where
  | inc (a : ℕ)
  | dec (a : ℕ)
  | ref (a : ℕ)
  | unref (a : ℕ)
  deriving DecidableEq

open TableEdit

/-- The contents of a table : the updates it has seen. -/
abbrev TableLog := Finset TableEdit

/-- Clusters, or references to them, are given by a number and the refcount block. -/
def ids (l : List (ℕ × ℕ)) : List ℕ := l.map Prod.fst

/-- The updates that drop references. -/
def unrefs (old : List (ℕ × ℕ)) : TableLog := (old.map fun p => TableEdit.unref p.1).toFinset

def refs (new : List (ℕ × ℕ)) : TableLog := (new.map fun p => TableEdit.ref p.1).toFinset

/-! ## The callers of the caches -/

section Callers

variable (depth : ℕ)

/-- The block that the loop of `update_refcount` holds, as its offset and its entry. -/
def putHeld (held : Option (ℕ × ℕ)) (s : CacheState TableLog) : CacheState TableLog :=
  match held with
  | none => s
  | some (_, i) => qcow2CachePut .refcountBlock i s

/-- The block for the next cluster : the one that is held, or another one. -/
def holdBlock (b : ℕ) (held : Option (ℕ × ℕ)) (s : CacheState TableLog) :
    Option (Except Errno ℕ × CacheState TableLog) :=
  match held with
  | some (b', i) =>
    if b' = b then some (.ok i, s) else qcow2CacheGet depth .refcountBlock b (putHeld held s)
  | none => qcow2CacheGet depth .refcountBlock b s

/-- The loop over the clusters, each with its refcount block, which exists. It stops when a
block cannot be loaded or a refcount would leave its range, and returns the clusters that are
left. -/
def updateRefcountLoop (edit : ℕ → TableEdit) : List (ℕ × ℕ) → Option (ℕ × ℕ) →
    CacheState TableLog → Option (Option Errno × List (ℕ × ℕ) × CacheState TableLog)
  | [], held, s => some (none, [], putHeld held s)
  | (a, b) :: rest, held, s =>
    match holdBlock depth b held s with
    | none => none
    | some (.error e, s) => some (some e, (a, b) :: rest, s)
    | some (.ok i, s) =>
      match nextIo s with
      | (⟨some e, _⟩, s) =>
        some (some e, (a, b) :: rest,
          qcow2CachePut .refcountBlock i (editTable .refcountBlock i id s))
      | (⟨none, _⟩, s) =>
        updateRefcountLoop edit rest (some (b, i)) (editTable .refcountBlock i (· ∪ {edit a}) s)

/-- `update_refcount`. After an error the clusters that were done are undone, which may fail
as well and is then undone in turn; the number bounds these calls. The flag says that a call
of `qcow2_cache_set_dependency` failed and nobody noticed. -/
def updateRefcountAux : ℕ → Bool → List (ℕ × ℕ) → CacheState TableLog →
    Option (Option Errno × Bool × CacheState TableLog)
  | _, _, [], s => some (none, false, s)
  | 0, _, _ :: _, s => some (none, false, s)
  | n + 1, increase, c :: clusters, s =>
    let dependency :=
      if increase then some (none, s)
      else qcow2CacheSetDependency depth .refcountBlock .l2Table s
    match dependency with
    | none => none
    | some (dep, s) =>
      let edit := if increase then TableEdit.inc else TableEdit.dec
      match updateRefcountLoop depth edit (c :: clusters) none s with
      | none => none
      | some (none, _, s) => some (none, dep.isSome, s)
      | some (some e, rest, s) =>
        match updateRefcountAux n (!increase)
            ((c :: clusters).take ((c :: clusters).length - rest.length)) s with
        | none => none
        | some (_, ignored, s) => some (some e, dep.isSome || ignored, s)

def updateRefcount (increase : Bool) (clusters : List (ℕ × ℕ)) (s : CacheState TableLog) :
    Option (Option Errno × Bool × CacheState TableLog) :=
  updateRefcountAux depth clusters.length increase clusters s

/-- The table is loaded, changed and put back. -/
def updateL2 (t : ℕ) (edits : TableLog) (s : CacheState TableLog) :
    Option (Option Errno × CacheState TableLog) :=
  match qcow2CacheGet depth .l2Table t s with
  | none => none
  | some (.error e, s) => some (some e, s)
  | some (.ok i, s) =>
    some (none, qcow2CachePut .l2Table i (editTable .l2Table i (· ∪ edits) s))

/-- `qcow2_alloc_cluster_link_l2` : the dependency, then the entries of new clusters over
those of old ones. With copy on write the table also depends on a flush. -/
def qcow2AllocClusterLinkL2 (cow : Bool) (t : ℕ) (edits : TableLog) (s : CacheState TableLog) :
    Option (Option Errno × Bool × CacheState TableLog) :=
  let s := if cow then qcow2CacheDependsOnFlush .l2Table s else s
  match qcow2CacheSetDependency depth .l2Table .refcountBlock s with
  | none => none
  | some (dep, s) => (updateL2 depth t edits s).map fun (r, s) => (r, dep.isSome, s)

/-- `qcow2_alloc_compressed_cluster_offset` : the table is held while `qcow2_alloc_bytes` takes a
new cluster, or makes another reference to the one that is being filled, or both. A failure of the
second is ignored, and the entry is made nevertheless. -/
def qcow2AllocCompressedClusterOffset (t : ℕ) (new more : List (ℕ × ℕ))
    (s : CacheState TableLog) : Option (Option Errno × Bool × CacheState TableLog) :=
  match qcow2CacheGet depth .l2Table t s with
  | none => none
  | some (.error e, s) => some (some e, false, s)
  | some (.ok i, s) =>
    match updateRefcount depth true new s with
    | none => none
    | some (some e, ignored, s) => some (some e, ignored, qcow2CachePut .l2Table i s)
    | some (none, ignored, s) =>
      match updateRefcount depth true more s with
      | none => none
      | some (r, ignored', s) =>
        match qcow2CacheSetDependency depth .l2Table .refcountBlock s with
        | none => none
        | some (dep, s) =>
          some (none, ignored || (r.isSome || ignored') || dep.isSome,
            qcow2CachePut .l2Table i (editTable .l2Table i (· ∪ refs (new ++ more)) s))

end Callers

/-! ## Runs -/

/-- References are given by their numbers, each with the refcount block that counts it. -/
structure OrderState where
  cache : CacheState TableLog
  /-- the next number -/
  next : ℕ
  /-- allocated, with no reference yet -/
  allocated : List (ℕ × ℕ)
  /-- referred to by a table -/
  linked : List ((ℕ × ℕ) × ℕ)
  /-- no longer referred to, but still counted -/
  dropped : List (ℕ × ℕ)
  /-- history : a failed call of `qcow2_cache_set_dependency`, or the failed increase for a
  compressed cluster, was ignored -/
  ignored : Bool

open OrderState

inductive OrderOp where
  /-- new clusters, counted by these blocks -/
  | alloc (blocks : List ℕ)
  | link (cow : Bool) (t : ℕ) (new : List (ℕ × ℕ)) (old : List (ℕ × ℕ))
  /-- the blocks of a new cluster and of one that gets another reference -/
  | compress (t : ℕ) (new more : List ℕ)
  | discard (t : ℕ) (old : List (ℕ × ℕ))
  | free (clusters : List (ℕ × ℕ))
  /-- a table is read -/
  | load (c : CacheId) (o : ℕ)
  | flush (c : CacheId)

/-- New references, counted by these blocks. -/
def numbered (next : ℕ) (blocks : List ℕ) : List (ℕ × ℕ) :=
  (range' next blocks.length).zip blocks

/-- One operation with the results of its requests to the file. New references are to
clusters that were allocated for them, and a table drops references that it has. -/
def orderStep (depth : ℕ) : OrderOp × List IoResult → OrderState → Option OrderState
  | (.alloc blocks, io), s =>
    if 0 ∈ blocks then none
    else
      let new := numbered s.next blocks
      (updateRefcount depth true new { s.cache with io := io }).map fun (r, ignored, cache) =>
        { s with
          cache := cache
          next := s.next + blocks.length
          allocated := if r = none then new ++ s.allocated else s.allocated
          ignored := s.ignored || ignored }
  | (.link cow t new old, io), s =>
    if t ≠ 0 ∧ (∀ p ∈ new, p ∈ s.allocated) ∧ (∀ p ∈ old, (p, t) ∈ s.linked) then
      (qcow2AllocClusterLinkL2 depth cow t (refs new ∪ unrefs old) { s.cache with io := io }).map
        fun (r, ignored, cache) =>
          if r = none then
            { s with
              cache := cache
              allocated := s.allocated.filter fun p => p.1 ∉ ids new
              linked := (new.map (·, t) ++ s.linked).filter fun q => q.1.1 ∉ ids old
              dropped := old ++ s.dropped
              ignored := s.ignored || ignored }
          else { s with cache := cache, ignored := s.ignored || ignored }
    else none
  | (.compress t new more, io), s =>
    if t ≠ 0 ∧ 0 ∉ new ∧ 0 ∉ more then
      let new' := numbered s.next new
      let more' := numbered (s.next + new.length) more
      (qcow2AllocCompressedClusterOffset depth t new' more' { s.cache with io := io }).map
        fun (r, ignored, cache) =>
          { s with
            cache := cache
            next := s.next + new.length + more.length
            linked := if r = none then (new' ++ more').map (·, t) ++ s.linked else s.linked
            ignored := s.ignored || ignored }
    else none
  | (.discard t old, io), s =>
    if t ≠ 0 ∧ ∀ p ∈ old, (p, t) ∈ s.linked then
      (updateL2 depth t (unrefs old) { s.cache with io := io }).map fun (r, cache) =>
        if r = none then
          { s with
            cache := cache
            linked := s.linked.filter fun q => q.1.1 ∉ ids old
            dropped := old ++ s.dropped }
        else { s with cache := cache }
    else none
  | (.free clusters, io), s =>
    if ∀ p ∈ clusters, p ∈ s.dropped ∧ p.2 ≠ 0 then
      (updateRefcount depth false clusters { s.cache with io := io }).map fun (_, ignored, cache) =>
        { s with
          cache := cache
          dropped := s.dropped.filter fun p => p.1 ∉ ids clusters
          ignored := s.ignored || ignored }
    else none
  | (.load c o, io), s =>
    if o ≠ 0 then
      (qcow2CacheGet depth c o { s.cache with io := io }).map fun (r, cache) =>
        { s with cache := match r with
            | .ok i => qcow2CachePut c i cache
            | .error _ => cache }
    else none
  | (.flush c, io), s =>
    (qcow2CacheFlush depth c { s.cache with io := io }).map fun (_, cache) =>
      { s with cache := cache }

/-- The references of an image, given by the refcount block and the L2 table of each. -/
def oldLinks (old : List (ℕ × ℕ)) : List ((ℕ × ℕ) × ℕ) :=
  old.zipIdx.map fun ((b, t), a) => ((a, b), t)

/-- The image when it is opened : the caches are empty, of any size. -/
def OrderState.init (size : CacheId → ℕ) (old : List (ℕ × ℕ)) : OrderState :=
  let tables : CacheId → ℕ → TableLog
    | .l2Table, t => refs (((oldLinks old).filter (·.2 = t)).map Prod.fst)
    | .refcountBlock, b =>
      (((oldLinks old).filter (·.1.2 = b)).map fun q => TableEdit.inc q.1.1).toFinset
  { cache :=
      { cache := fun c => ⟨fun _ => ⟨∅, 0, false, 0, 0⟩, none, size c, false⟩
        written := tables
        stable := tables
        io := []
        past := [] }
    next := old.length
    allocated := []
    linked := oldLinks old
    dropped := []
    ignored := false }

/-! ## The order -/

open CacheId in
/-- The file can be used after a crash : a table that refers to a cluster has its refcount in
the file for good, and a decreased refcount comes after the table that dropped the
reference. -/
structure CrashSafe (view : CacheId → ℕ → TableLog)
    (file : (CacheId → ℕ → TableLog) × (CacheId → ℕ → TableLog)) : Prop where
  ref : ∀ a t, .ref a ∈ file.1 l2Table t → ∃ b, .inc a ∈ file.2 refcountBlock b
  dec : ∀ a b t, .dec a ∈ file.1 refcountBlock b → .ref a ∈ view l2Table t →
    .unref a ∈ file.1 l2Table t

/-- What the file was at every moment, with what of it was stable. -/
def CacheState.files (s : CacheState TableLog) :
    List ((CacheId → ℕ → TableLog) × (CacheId → ℕ → TableLog)) :=
  (s.written, s.stable) :: s.past

def TableEdit.number : TableEdit → ℕ
  | .inc a | .dec a | .ref a | .unref a => a

open CacheId in
/-- The increase is in the file for good, or will be before the L2 tables are written. -/
def Counted (s : CacheState TableLog) (a : ℕ) : Prop :=
  (∃ b, .inc a ∈ s.stable refcountBlock b) ∨
    (s.cache l2Table).depends = some refcountBlock ∧ ∃ b, .inc a ∈ s.view refcountBlock b

section Invariant

variable (next : ℕ) (allocated : List (ℕ × ℕ)) (linked : List ((ℕ × ℕ) × ℕ))
  (dropped : List (ℕ × ℕ))

open CacheId in
structure OrderInv (s : CacheState TableLog) : Prop where
  fresh : ∀ c o e, e ∈ s.view c o → e.number < next
  lists : (∀ a ∈ ids allocated, a < next) ∧ (∀ q ∈ linked, q.1.1 < next) ∧
    ∀ a ∈ ids dropped, a < next
  ofAllocated : ∀ p ∈ allocated, .inc p.1 ∈ s.view refcountBlock p.2 ∧
    ∀ t, .ref p.1 ∉ s.view l2Table t
  ofLinked : ∀ q ∈ linked, q.1.1 ∉ ids allocated ∧ ∀ t, .ref q.1.1 ∈ s.view l2Table t → t = q.2
  ofDropped : ∀ a ∈ ids dropped, a ∉ ids allocated ∧ (∀ q ∈ linked, q.1.1 ≠ a) ∧
    ∀ t, .ref a ∈ s.view l2Table t → .unref a ∈ s.view l2Table t
  /-- what has a reference, or will have one, was not decreased -/
  counted : ∀ a, a ∈ ids allocated ∨ (∃ q ∈ linked, q.1.1 = a) →
    ∀ b, .dec a ∉ s.view refcountBlock b
  ref : ∀ a t, .ref a ∈ s.view l2Table t → Counted s a
  dec : ∀ a b t, .dec a ∈ s.view refcountBlock b → .ref a ∈ s.view l2Table t →
    .unref a ∈ s.view l2Table t ∧ (.unref a ∈ s.written l2Table t ∨
      (s.cache refcountBlock).depends = some l2Table)
  files : ∀ f ∈ s.files, (∀ c o, f.1 c o ⊆ s.view c o) ∧ CrashSafe s.view f

end Invariant

variable {c : CacheId} {edits : TableLog}

section Steps

variable {next : ℕ} {allocated : List (ℕ × ℕ)} {linked : List ((ℕ × ℕ) × ℕ)}
  {dropped : List (ℕ × ℕ)} {s s' : CacheState TableLog}

theorem Counted.keeps {a} (h : Counted s a) (hk : Keeps s s') : Counted s' a := by
  rcases h with ⟨b, hb⟩ | ⟨hdep, b, hb⟩
  · exact .inl ⟨b, hk.stable _ b hb⟩
  · rw [← hk.view] at hb
    rcases hk.depends .l2Table with heq | ⟨-, hst⟩
    · exact .inr ⟨heq.trans hdep, b, hb⟩
    · exact .inl ⟨b, hst _ hdep b hb⟩

/-- A reference that was dropped is gone from the file, or the refcounts wait for it. -/
theorem Keeps.unref {a t} (hk : Keeps s s') (hok : CacheOk s) (hu : .unref a ∈ s.view .l2Table t)
    (h : .unref a ∈ s.written .l2Table t ∨ (s.cache .refcountBlock).depends = some .l2Table) :
    .unref a ∈ s'.written .l2Table t ∨ (s'.cache .refcountBlock).depends = some .l2Table := by
  rcases h with hw | hdep
  · exact .inl (hk.written_le hok _ t hw)
  · rcases hk.depends .refcountBlock with heq | ⟨-, hst⟩
    · exact .inr (heq.trans hdep)
    · refine .inl (hk.ok.stable_le _ t (hst _ hdep t ?_))
      rwa [hk.view]

section

variable (h : OrderInv next allocated linked dropped s)
include h

/-- Writing tables back in order keeps the file safe. -/
theorem OrderInv.crashSafe (hok : CacheOk s) (hk : WritesBack s s') :
    CrashSafe s.view (s'.written, s'.stable) := by
  have hwritten := hk.written_le hok
  obtain ⟨-, hsafe⟩ := h.files _ mem_cons_self
  have hall : ∀ {d o e}, s'.AllStable d → e ∈ s.view d o → e ∈ s'.stable d o := by
    intro d o e hd he
    exact hd o (by rwa [hk.view])
  refine ⟨fun a t ha => ?_, fun a b t hd hr => ?_⟩ <;> dsimp only at *
  · rcases hk.written .l2Table t with heq | ⟨heq, hst⟩ <;> rw [heq] at ha
    · obtain ⟨b, hb⟩ := hsafe.ref a t ha
      exact ⟨b, hk.stable _ b hb⟩
    · rcases h.ref a t ha with ⟨b, hb⟩ | ⟨hdep, b, hb⟩
      · exact ⟨b, hk.stable _ b hb⟩
      · exact ⟨b, hall (hst _ hdep) hb⟩
  · rcases hk.written .refcountBlock b with heq | ⟨heq, hst⟩ <;> rw [heq] at hd
    · exact hwritten _ t (hsafe.dec a b t hd hr)
    · obtain ⟨hu, hw | hdep⟩ := h.dec a b t hd hr
      · exact hwritten _ t hw
      · exact hk.ok.stable_le _ t (hall (hst _ hdep) hu)

theorem OrderInv.keeps (hok : CacheOk s) (hk : Keeps s s') :
    OrderInv next allocated linked dropped s' := by
  have hview : s'.view = s.view := funext fun c => funext fun o => hk.view c o
  have hmoment : ∀ {m}, WritesBack s m →
      (∀ c o, m.written c o ⊆ s.view c o) ∧ CrashSafe s.view (m.written, m.stable) := by
    intro m hm
    refine ⟨fun c o => ?_, h.crashSafe hok hm⟩
    rw [← hm.view]
    exact hm.ok.written_le_view o
  constructor <;> try rw [hview]
  · exact h.fresh
  · exact h.lists
  · exact h.ofAllocated
  · exact h.ofLinked
  · exact h.ofDropped
  · exact h.counted
  · exact fun a t ha => (h.ref a t ha).keeps hk
  · intro a b t hd hr
    obtain ⟨hu, hw⟩ := h.dec a b t hd hr
    exact ⟨hu, hk.unref hok hu hw⟩
  · intro f hf
    rcases mem_cons.1 hf with rfl | hf
    · exact hmoment hk.toWritesBack
    · rcases hk.past f hf with hf | ⟨m, hm, rfl⟩
      · exact h.files f (mem_cons_of_mem _ hf)
      · exact hmoment hm

/-- A cache may depend on the other one. -/
theorem OrderInv.setDepends {d} (hne : d ≠ c) :
    OrderInv next allocated linked dropped (s.setCache c { s.cache c with depends := some d }) := by
  have hview : (s.setCache c { s.cache c with depends := some d }).view = s.view :=
    funext fun c' => funext fun o => view_flags s c (some d) (s.cache c).dependsOnFlush c' o
  have hdep : ∀ {c' d'}, d' ≠ c' → (s.cache c').depends = some d' →
      ((s.setCache c { s.cache c with depends := some d }).cache c').depends = some d' := by
    intro c' d' hne' hc'
    rw [(cache_flags s c (some d) (s.cache c).dependsOnFlush c').2.2]
    split_ifs with heq
    · subst heq
      cases c' <;> cases d <;> cases d' <;>
        first | rfl | exact absurd rfl hne | exact absurd rfl hne'
    · exact hc'
  constructor <;> try rw [hview]
  · exact h.fresh
  · exact h.lists
  · exact h.ofAllocated
  · exact h.ofLinked
  · exact h.ofDropped
  · exact h.counted
  · refine fun a t ha => (h.ref a t ha).imp id fun ⟨hd, hb⟩ => ⟨hdep nofun hd, ?_⟩
    rwa [hview]
  · intro a b t hd hr
    obtain ⟨hu, hw⟩ := h.dec a b t hd hr
    exact ⟨hu, hw.imp id (hdep nofun)⟩
  · exact h.files

end

/-- The reference was dropped, or there never was one. -/
def Loose (next : ℕ) (allocated : List (ℕ × ℕ)) (linked : List ((ℕ × ℕ) × ℕ))
    (s : CacheState TableLog) (a : ℕ) : Prop :=
  a < next ∧ a ∉ ids allocated ∧ (∀ q ∈ linked, q.1.1 ≠ a) ∧
    ∀ t, .ref a ∈ s.view .l2Table t → .unref a ∈ s.view .l2Table t

/-- The update of a refcount block may be made : an increase, or a decrease for a reference
that is gone from the file before it. -/
def Allowed (next : ℕ) (allocated : List (ℕ × ℕ)) (linked : List ((ℕ × ℕ) × ℕ))
    (s : CacheState TableLog) (e : TableEdit) : Prop :=
  ∃ a, e = .inc a ∧ a < next ∨ e = .dec a ∧ Loose next allocated linked s a ∧
    ∀ t, .ref a ∈ s.view .l2Table t →
      .unref a ∈ s.written .l2Table t ∨ (s.cache .refcountBlock).depends = some .l2Table

theorem Loose.of_view {a} (h : Loose next allocated linked s a)
    (hview : ∀ t, s'.view .l2Table t = s.view .l2Table t) : Loose next allocated linked s' a := by
  refine ⟨h.1, h.2.1, h.2.2.1, fun t => ?_⟩
  rw [hview]
  exact h.2.2.2 t

variable {e : TableEdit}

theorem Allowed.keeps (h : Allowed next allocated linked s e) (hok : CacheOk s) (hk : Keeps s s') :
    Allowed next allocated linked s' e := by
  obtain ⟨a, ⟨rfl, ha⟩ | ⟨rfl, hl, hw⟩⟩ := h
  · exact ⟨a, .inl ⟨rfl, ha⟩⟩
  · refine ⟨a, .inr ⟨rfl, hl.of_view (hk.view _), fun t hr => ?_⟩⟩
    rw [hk.view] at hr
    exact hk.unref hok (hl.2.2.2 t hr) (hw t hr)

section Edit

variable {i a : ℕ}

section

variable (hok : CacheOk s) (hi : i < (s.cache c).size) (ho : (s.entry c i).offset ≠ 0)
include hok hi ho

theorem edit_ok (edits : TableLog) : CacheOk (editTable c i (· ∪ edits) s) :=
  (editTable_view hok hi ho fun _ => subset_union_left).1

theorem mem_view_edit {c' o} :
    e ∈ (editTable c i (· ∪ edits) s).view c' o ↔
      e ∈ s.view c' o ∨ c' = c ∧ o = (s.entry c i).offset ∧ e ∈ edits := by
  rw [(editTable_view hok hi ho fun x => subset_union_left).2]
  split_ifs with heq
  · rw [mem_union]
    tauto
  · tauto

end

/-- A refcount block changes. -/
theorem OrderInv.rc (h : OrderInv next allocated linked dropped s) (hok : CacheOk s)
    (hi : i < (s.cache .refcountBlock).size) (ho : (s.entry .refcountBlock i).offset ≠ 0)
    (he : Allowed next allocated linked s e) :
    OrderInv next allocated linked dropped (editTable .refcountBlock i (· ∪ {e}) s) := by
  obtain ⟨a, he⟩ := he
  have hview : ∀ {c' o e'}, e' ∈ (editTable .refcountBlock i (· ∪ {e}) s).view c' o ↔
      e' ∈ s.view c' o ∨ c' = .refcountBlock ∧ o = (s.entry .refcountBlock i).offset ∧ e' = e := by
    intro c' o e'
    rw [mem_view_edit hok hi ho, Finset.mem_singleton]
  have hl2 : ∀ {o e'}, e' ∈ (editTable .refcountBlock i (· ∪ {e}) s).view .l2Table o ↔
      e' ∈ s.view .l2Table o := by
    intro o e'
    rw [hview]
    exact or_iff_left fun hh => nomatch hh.1
  have hdep : ∀ c', ((editTable .refcountBlock i (· ∪ {e}) s).cache c').depends =
      (s.cache c').depends := fun c' => by simp
  refine ⟨fun c o e' he' => ?_, h.lists, fun p hp => ?_, fun q hq => ?_, fun x hx => ?_,
    fun x hx b hd => ?_, fun x t hr => ?_, fun x b t hd hr => ?_, fun f hf => ?_⟩
  · rcases hview.1 he' with he' | ⟨-, -, rfl⟩
    · exact h.fresh c o e' he'
    · rcases he with ⟨rfl, ha⟩ | ⟨rfl, ha, -⟩
      · exact ha
      · exact ha.1
  · obtain ⟨h1, h2⟩ := h.ofAllocated p hp
    exact ⟨hview.2 (.inl h1), h2⟩
  · exact h.ofLinked q hq
  · exact h.ofDropped x hx
  · rcases hview.1 hd with hd | ⟨-, -, heq⟩
    · exact h.counted x hx b hd
    · rcases he with ⟨rfl, -⟩ | ⟨rfl, ha, -⟩
      · cases heq
      · obtain rfl := dec.inj heq
        rcases hx with hx | ⟨q, hq, hx⟩
        · exact ha.2.1 hx
        · exact ha.2.2.1 q hq hx
  · unfold Counted
    exact (h.ref x t hr).imp id fun ⟨hd, b, hb⟩ => ⟨hd, b, hview.2 (.inl hb)⟩
  · rcases hview.1 hd with hd | ⟨-, -, heq⟩
    · exact h.dec x b t hd hr
    · rcases he with ⟨rfl, -⟩ | ⟨rfl, ha, hw⟩
      · cases heq
      · obtain rfl := dec.inj heq
        exact ⟨ha.2.2.2 t hr, hw t hr⟩
  · obtain ⟨hle, hsafe⟩ := h.files f hf
    exact ⟨fun c o _ hx => hview.2 (.inl (hle c o hx)), hsafe.ref,
      fun x b t hd hr => hsafe.dec x b t hd (hl2.1 hr)⟩

/-- The table `t` has got references to new clusters and dropped those to old ones. -/
structure L2Edited (new old : List (ℕ × ℕ)) (t : ℕ) (s s' : CacheState TableLog) : Prop where
  rc : ∀ b, s'.view .refcountBlock b = s.view .refcountBlock b
  mem : ∀ {c o e}, e ∈ s'.view c o ↔
    e ∈ s.view c o ∨ c = .l2Table ∧ o = t ∧ e ∈ refs new ∪ unrefs old

theorem l2Edited (new old : List (ℕ × ℕ)) (hok : CacheOk s) (hi : i < (s.cache .l2Table).size)
    (ho : (s.entry .l2Table i).offset ≠ 0) : L2Edited new old (s.entry .l2Table i).offset s
      (editTable .l2Table i (· ∪ (refs new ∪ unrefs old)) s) := by
  have hmem : ∀ {c o e}, e ∈ (editTable .l2Table i (· ∪ (refs new ∪ unrefs old)) s).view c o ↔
      e ∈ s.view c o ∨ c = .l2Table ∧ o = (s.entry .l2Table i).offset ∧
        e ∈ refs new ∪ unrefs old := mem_view_edit hok hi ho
  refine ⟨fun b => ?_, hmem⟩
  ext e
  rw [hmem]
  exact or_iff_left fun hh => nomatch hh.1

theorem mem_ids_of_mem {l : List (ℕ × ℕ)} {p} (hp : p ∈ l) : p.1 ∈ ids l := mem_map.2 ⟨p, hp, rfl⟩

theorem mem_ids_filter {l new : List (ℕ × ℕ)} :
    a ∈ ids (l.filter fun p => p.1 ∉ ids new) ↔ a ∈ ids l ∧ a ∉ ids new := by
  simp only [ids, List.mem_map, List.mem_filter, decide_eq_true_eq]
  exact ⟨fun ⟨p, ⟨hp, hn⟩, heq⟩ => ⟨⟨p, hp, heq⟩, heq ▸ hn⟩,
    fun ⟨⟨p, hp, heq⟩, hn⟩ => ⟨p, ⟨hp, heq ▸ hn⟩, heq⟩⟩

/-- What is linked after the edit. -/
theorem mem_linked_filter {new old : List (ℕ × ℕ)} {t : ℕ} {q : (ℕ × ℕ) × ℕ}
    (hq : q ∈ (new.map (·, t) ++ linked).filter fun q => q.1.1 ∉ ids old) :
    (q.1 ∈ new ∧ q.2 = t ∨ q ∈ linked) ∧ q.1.1 ∉ ids old := by
  obtain ⟨hq, hn⟩ := mem_filter.1 hq
  refine ⟨(mem_append.1 hq).imp_left fun hq => ?_, of_decide_eq_true hn⟩
  obtain ⟨p, hp, rfl⟩ := mem_map.1 hq
  exact ⟨hp, rfl⟩

section L2

variable {new old : List (ℕ × ℕ)} {t : ℕ}

theorem L2Edited.ref (he : L2Edited new old t s s') {o} :
    .ref a ∈ s'.view .l2Table o ↔ .ref a ∈ s.view .l2Table o ∨ o = t ∧ a ∈ ids new := by
  rw [he.mem]
  simp [refs, unrefs, ids]

theorem L2Edited.unref (he : L2Edited new old t s s') {o} :
    .unref a ∈ s'.view .l2Table o ↔ .unref a ∈ s.view .l2Table o ∨ o = t ∧ a ∈ ids old := by
  rw [he.mem]
  simp [refs, unrefs, ids]

variable (h : OrderInv next allocated linked dropped s) (he : L2Edited new old t s s')
  (hnew : ∀ p ∈ new, p ∈ allocated) (hold : ∀ p ∈ old, (p, t) ∈ linked)
include h he hnew hold

theorem OrderInv.l2_fresh {c o e} (hmem : e ∈ s'.view c o) : e.number < next := by
  rcases he.mem.1 hmem with hmem | ⟨-, -, hmem⟩
  · exact h.fresh c o e hmem
  · rcases mem_union.1 hmem with hmem | hmem
    · obtain ⟨p, hp, rfl⟩ := mem_map.1 (mem_toFinset.1 hmem)
      exact h.lists.1 p.1 (mem_ids_of_mem (hnew p hp))
    · obtain ⟨p, hp, rfl⟩ := mem_map.1 (mem_toFinset.1 hmem)
      exact h.lists.2.1 _ (hold p hp)

/-- A reference that is linked now has its place in its table alone. -/
theorem OrderInv.l2_linked {q}
    (hq : q ∈ (new.map (·, t) ++ linked).filter fun q => q.1.1 ∉ ids old) :
    q.1.1 ∉ ids (allocated.filter fun p => p.1 ∉ ids new) ∧
      ∀ o, .ref q.1.1 ∈ s'.view .l2Table o → o = q.2 := by
  rcases (mem_linked_filter hq).1 with ⟨hq, hqt⟩ | hq
  · refine ⟨fun hf => (mem_ids_filter.1 hf).2 (mem_ids_of_mem hq), fun o hr => ?_⟩
    rcases he.ref.1 hr with hr | ⟨rfl, -⟩
    · exact absurd hr ((h.ofAllocated q.1 (hnew q.1 hq)).2 o)
    · exact hqt.symm
  · obtain ⟨h1, h2⟩ := h.ofLinked q hq
    refine ⟨fun hf => h1 (mem_ids_filter.1 hf).1, fun o hr => ?_⟩
    rcases he.ref.1 hr with hr | ⟨-, hr⟩
    · exact h2 o hr
    · obtain ⟨p, hp, heq⟩ := mem_map.1 hr
      exact absurd (heq ▸ mem_ids_of_mem (hnew p hp)) h1

/-- A reference that is dropped now is marked so wherever it is. -/
theorem OrderInv.l2_dropped (ha : a ∈ ids (old ++ dropped)) :
    a ∉ ids (allocated.filter fun p => p.1 ∉ ids new) ∧
      (∀ q ∈ (new.map (·, t) ++ linked).filter fun q => q.1.1 ∉ ids old, q.1.1 ≠ a) ∧
      ∀ o, .ref a ∈ s'.view .l2Table o → .unref a ∈ s'.view .l2Table o := by
  rw [ids, map_append] at ha
  rcases mem_append.1 ha with ha | ha
  · obtain ⟨p, hp, rfl⟩ := mem_map.1 ha
    obtain ⟨h1, h2⟩ := h.ofLinked _ (hold p hp)
    refine ⟨fun hf => h1 (mem_ids_filter.1 hf).1,
      fun q hq heq => (mem_linked_filter hq).2 (heq ▸ ha), fun o hr => he.unref.2 (.inr ⟨?_, ha⟩)⟩
    rcases he.ref.1 hr with hr | ⟨rfl, -⟩
    · exact h2 o hr
    · rfl
  · obtain ⟨h1, h2, h3⟩ := h.ofDropped a ha
    have hnot : a ∉ ids new := fun hm => by
      obtain ⟨p, hp, rfl⟩ := mem_map.1 hm
      exact h1 (mem_ids_of_mem (hnew p hp))
    refine ⟨fun hf => h1 (mem_ids_filter.1 hf).1, fun q hq heq => ?_, fun o hr => ?_⟩
    · rcases (mem_linked_filter hq).1 with ⟨hq, -⟩ | hq
      · exact hnot (heq ▸ mem_ids_of_mem hq)
      · exact h2 q hq heq
    · exact he.unref.2 (.inl (h3 o ((he.ref.1 hr).resolve_right fun hr => hnot hr.2)))

end L2

/-- An L2 table gets references to new clusters and drops those to old ones. -/
theorem OrderInv.l2 (h : OrderInv next allocated linked dropped s) (new old : List (ℕ × ℕ))
    (hok : CacheOk s) (hi : i < (s.cache .l2Table).size) (ho : (s.entry .l2Table i).offset ≠ 0)
    (hnew : ∀ p ∈ new, p ∈ allocated ∧ Counted s p.1)
    (hold : ∀ p ∈ old, (p, (s.entry .l2Table i).offset) ∈ linked) :
    OrderInv next (allocated.filter fun p => p.1 ∉ ids new)
      ((new.map (·, (s.entry .l2Table i).offset) ++ linked).filter fun q => q.1.1 ∉ ids old)
      (old ++ dropped) (editTable .l2Table i (· ∪ (refs new ∪ unrefs old)) s) := by
  have he := l2Edited new old hok hi ho
  have hall : ∀ p ∈ new, p ∈ allocated := fun p hp => (hnew p hp).1
  have hids : ∀ {a}, a ∈ ids new → a ∈ ids allocated := by
    intro a ha
    obtain ⟨p, hp, rfl⟩ := mem_map.1 ha
    exact mem_ids_of_mem (hall p hp)
  obtain ⟨s', hs'⟩ := @exists_eq _ (editTable .l2Table i (· ∪ (refs new ∪ unrefs old)) s)
  have hdep : ∀ c, (s'.cache c).depends = (s.cache c).depends := fun c => by simp [hs']
  have hw : s'.written = s.written := by rw [hs']; rfl
  have hst : s'.stable = s.stable := by rw [hs']; rfl
  rw [← hs'] at he ⊢
  refine ⟨fun c o e => h.l2_fresh he hall hold, ⟨fun a ha => h.lists.1 a (mem_ids_filter.1 ha).1,
    fun q hq => ?_, fun a ha => ?_⟩, fun p hp => ?_, fun q hq => h.l2_linked he hall hold hq,
    fun a ha => h.l2_dropped he hall hold ha, fun a ha b => ?_, fun a o hr => ?_,
    fun a b o hd hr => ?_, fun f hf => ?_⟩
  · rcases (mem_linked_filter hq).1 with ⟨hq, -⟩ | hq
    · exact h.lists.1 _ (hids (mem_ids_of_mem hq))
    · exact h.lists.2.1 q hq
  · rw [ids, map_append] at ha
    rcases mem_append.1 ha with ha | ha
    · obtain ⟨p, hp, rfl⟩ := mem_map.1 ha
      exact h.lists.2.1 _ (hold p hp)
    · exact h.lists.2.2 a ha
  · obtain ⟨hp, hn⟩ := mem_filter.1 hp
    obtain ⟨h1, h2⟩ := h.ofAllocated p hp
    rw [he.rc]
    refine ⟨h1, fun o hr => h2 o ((he.ref.1 hr).resolve_right fun hr => ?_)⟩
    simp [hr] at hn
  · rw [he.rc]
    refine h.counted a ?_ b
    rcases ha with ha | ⟨q, hq, rfl⟩
    · exact .inl (mem_ids_filter.1 ha).1
    · exact (mem_linked_filter hq).1.imp (fun hq => hids (mem_ids_of_mem hq.1))
        fun hq => ⟨q, hq, rfl⟩
  · unfold Counted
    rw [hdep, hst]
    simp only [he.rc]
    rcases he.ref.1 hr with hr | ⟨-, hr⟩
    · exact h.ref a o hr
    · obtain ⟨p, hp, rfl⟩ := mem_map.1 hr
      exact (hnew p hp).2
  · rw [he.rc] at hd
    rw [hdep, hw]
    rcases he.ref.1 hr with hr | ⟨-, hr⟩
    · exact ⟨he.unref.2 (.inl (h.dec a b o hd hr).1), (h.dec a b o hd hr).2⟩
    · exact absurd hd (h.counted a (.inl (hids hr)) b)
  · obtain ⟨hle, hsafe⟩ := h.files f (by rwa [hs'] at hf)
    refine ⟨fun c o _ hx => he.mem.2 (.inl (hle c o hx)), hsafe.ref, fun a b o hd hr => ?_⟩
    rcases he.ref.1 hr with hr | ⟨-, hr⟩
    · exact hsafe.dec a b o hd hr
    · exact absurd (hle _ b hd) (h.counted a (.inl (hids hr)) b)

end Edit

end Steps

/-! ## `update_refcount` -/

/-- What `update_refcount` does to the caches. -/
structure RcEffect (edit : ℕ → TableEdit) (clusters : List (ℕ × ℕ)) (s s' : CacheState TableLog) :
    Prop where
  ok : CacheOk s'
  l2 : s.SameOffsets s' .l2Table
  view_l2 : ∀ t, s'.view .l2Table t = s.view .l2Table t
  view_rc : ∀ b e, e ∈ s'.view .refcountBlock b → e ∈ s.view .refcountBlock b ∨
    ∃ p ∈ clusters, p.2 = b ∧ e = edit p.1
  mono : ∀ b, s.view .refcountBlock b ⊆ s'.view .refcountBlock b
  inv : ∀ {next allocated linked dropped}, OrderInv next allocated linked dropped s →
    (∀ p ∈ clusters, Allowed next allocated linked s (edit p.1)) →
    OrderInv next allocated linked dropped s' ∧
      ∀ p ∈ clusters, Allowed next allocated linked s' (edit p.1)

namespace RcEffect

variable {edit : ℕ → TableEdit} {clusters : List (ℕ × ℕ)} {s s' s'' : CacheState TableLog}

theorem trans (h : RcEffect edit clusters s s') (h' : RcEffect edit clusters s' s'') :
    RcEffect edit clusters s s'' := by
  refine ⟨h'.ok, h.l2.trans h'.l2, fun t => (h'.view_l2 t).trans (h.view_l2 t), fun b e he => ?_,
    fun b => (h.mono b).trans (h'.mono b), fun hinv hall => ?_⟩
  · rcases h'.view_rc b e he with he | he
    · exact h.view_rc b e he
    · exact .inr he
  · obtain ⟨hinv', hall'⟩ := h.inv hinv hall
    exact h'.inv hinv' hall'

theorem of_keeps (hok : CacheOk s) (hk : Keeps s s') (hl2 : s.SameOffsets s' .l2Table) :
    RcEffect edit clusters s s' :=
  ⟨hk.ok, hl2, hk.view _, fun b _ he => .inl (hk.view _ b ▸ he), fun b => (hk.view _ b).ge,
    fun hinv hall => ⟨hinv.keeps hok hk, fun p hp => (hall p hp).keeps hok hk⟩⟩

/-- One of the updates. -/
theorem of_edit (hok : CacheOk s) {i} (hi : i < (s.cache .refcountBlock).size)
    (ho : (s.entry .refcountBlock i).offset ≠ 0) {p} (hp : p ∈ clusters)
    (hoff : (s.entry .refcountBlock i).offset = p.2) :
    RcEffect edit clusters s (editTable .refcountBlock i (· ∪ {edit p.1}) s) := by
  have hview : ∀ t, (editTable .refcountBlock i (· ∪ {edit p.1}) s).view .l2Table t =
      s.view .l2Table t := by
    intro t
    ext e
    rw [mem_view_edit hok hi ho]
    exact or_iff_left fun hh => nomatch hh.1
  refine ⟨edit_ok hok hi ho _, sameOffsets_setEntry (by decide) _ _ _, hview,
    fun b e he => ?_, fun b _ he => ?_,
    fun hinv hall => ⟨hinv.rc hok hi ho (hall p hp), fun q hq => ?_⟩⟩
  · rw [mem_view_edit hok hi ho] at he
    exact he.imp id fun ⟨_, hb, he⟩ =>
      ⟨p, hp, (hb.trans hoff).symm, Finset.mem_singleton.1 he⟩
  · rw [mem_view_edit hok hi ho]
    exact .inl he
  · obtain ⟨a, ha⟩ := hall q hq
    refine ⟨a, ha.imp id fun ⟨h1, h2, h3⟩ => ⟨h1, h2.of_view hview, fun t hr => ?_⟩⟩
    simpa [CacheState.setEntry] using h3 t hr

end RcEffect

/-- The block that is held is in its entry. -/
def Held (s : CacheState TableLog) (held : Option (ℕ × ℕ)) : Prop :=
  ∀ b i, held = some (b, i) →
    b ≠ 0 ∧ i < (s.cache .refcountBlock).size ∧ (s.entry .refcountBlock i).offset = b

variable {r : Option Errno}

section UpdateRefcount

variable {depth : ℕ} {s s' : CacheState TableLog}

theorem putHeld_keeps (h : CacheOk s) (held : Option (ℕ × ℕ)) :
    Keeps s (putHeld held s) ∧ s.SameOffsets (putHeld held s) .l2Table := by
  unfold putHeld
  split
  · exact ⟨(Flushed.refl h).toKeeps, rfl, fun _ => rfl⟩
  · exact ⟨put h _ _, sameOffsets_setEntry (by decide) _ _ _⟩

theorem holdBlock_keeps {b held r} (h : CacheOk s)
    (hheld : Held s held) (hb : b ≠ 0) (hs : holdBlock depth b held s = some (r, s')) :
    Keeps s s' ∧ s.SameOffsets s' .l2Table ∧ ∀ i, r = .ok i →
      i < (s'.cache .refcountBlock).size ∧ (s'.entry .refcountBlock i).offset = b := by
  unfold holdBlock at hs
  split at hs
  · rename_i b' i
    split_ifs at hs with hbb
    · cases hs
      refine ⟨(Flushed.refl h).toKeeps, ⟨rfl, fun _ => rfl⟩, fun j hj => ?_⟩
      obtain rfl := Except.ok.inj hj
      rw [← hbb]
      exact (hheld b' i rfl).2
    · obtain ⟨hk, hl⟩ := putHeld_keeps h (some (b', i))
      obtain ⟨hk', hi, hl'⟩ := get_keeps hk.ok hb hs
      exact ⟨hk.trans hk', hl.trans (hl' _ (by decide)), hi⟩
  · obtain ⟨hk, hi, hl⟩ := get_keeps h hb hs
    exact ⟨hk, hl _ (by decide), hi⟩

/-- A block is marked as dirty and not changed. -/
theorem Keeps.markDirty (h : CacheOk s) {i} (hi : i < (s.cache c).size) :
    Keeps s (editTable c i id s) :=
  setEntry h hi (fun _ hne => absurd rfl hne)
    (fun h0 _ hj hji heq => hji (h.inj c _ _ hj hi (heq ▸ h0) heq))
    (fun h0 => (h.view_entry hi h0).symm) fun _ hd => nomatch hd

/-- The loop of `update_refcount` over the clusters. -/
theorem updateRefcountLoop_effect {edit clusters} :
    ∀ (cl : List (ℕ × ℕ)) (held : Option (ℕ × ℕ)) {s s' : CacheState TableLog}
      {r : Option Errno} {rest : List (ℕ × ℕ)}, CacheOk s → Held s held →
      (∀ p ∈ cl, p.2 ≠ 0 ∧ p ∈ clusters) →
      updateRefcountLoop depth edit cl held s = some (r, rest, s') →
      RcEffect edit clusters s s' ∧ (r = none → ∀ p ∈ cl, edit p.1 ∈ s'.view .refcountBlock p.2)
  | [], held, s, s', r, rest, h, _, _, hs => by
    cases hs
    obtain ⟨hk, hl⟩ := putHeld_keeps h held
    exact ⟨RcEffect.of_keeps h hk hl, fun _ => by simp⟩
  | (a, b) :: cl, held, s, s', r, rest, h, hheld, hcl, hs => by
    obtain ⟨hb, hp⟩ := hcl (a, b) mem_cons_self
    rw [updateRefcountLoop] at hs
    split at hs
    · cases hs
    · rename_i e s₁ hget
      cases hs
      obtain ⟨hk, hl, -⟩ := holdBlock_keeps h hheld hb hget
      exact ⟨RcEffect.of_keeps h hk hl, nofun⟩
    · rename_i i s₁ hget
      obtain ⟨hk, hl, hi⟩ := holdBlock_keeps h hheld hb hget
      obtain ⟨hi, hoff⟩ := hi i rfl
      have hio := nextIo_flushed hk.ok
      have he₁ : RcEffect edit clusters s (nextIo s₁).2 :=
        RcEffect.of_keeps h (hk.trans hio.toKeeps) (hl.trans (hio.sameOffsets _))
      have hi' : i < ((nextIo s₁).2.cache .refcountBlock).size := by
        rw [nextIo_cache]
        exact hi
      have hoff' : ((nextIo s₁).2.entry .refcountBlock i).offset = b := by
        rw [(sameOffsets_nextIo s₁ _).2]
        exact hoff
      split at hs
      · rename_i e _ s₂ hio₂
        rw [hio₂] at he₁ hi'
        cases hs
        have hk₂ := markDirty he₁.ok hi'
        refine ⟨he₁.trans (RcEffect.of_keeps he₁.ok (hk₂.trans (put hk₂.ok _ _)) ?_), nofun⟩
        exact (sameOffsets_setEntry (by decide) _ _ _).trans
          (sameOffsets_setEntry (by decide) _ _ _)
      · rename_i _ s₂ hio₂
        rw [hio₂] at he₁ hi' hoff'
        have he₂ : RcEffect edit clusters s₂ _ :=
          RcEffect.of_edit he₁.ok hi' (hoff'.symm ▸ hb) hp hoff'
        have hheld' : Held (editTable .refcountBlock i (· ∪ {edit a}) s₂) (some (b, i)) := by
          rintro b' i' heq
          cases heq
          rw [editTable, CacheState.size_setEntry, CacheState.entry_setEntry, if_pos ⟨rfl, rfl⟩]
          exact ⟨hb, hi', hoff'⟩
        obtain ⟨he₃, hall⟩ := updateRefcountLoop_effect cl (some (b, i)) he₂.ok hheld'
          (fun p hp => hcl p (mem_cons_of_mem _ hp)) hs
        refine ⟨he₁.trans (he₂.trans he₃), fun hr p hp => ?_⟩
        rcases mem_cons.1 hp with rfl | hp
        · refine he₃.mono b ?_
          rw [mem_view_edit he₁.ok hi' (hoff'.symm ▸ hb)]
          exact .inr ⟨rfl, hoff'.symm, Finset.mem_singleton_self _⟩
        · exact hall hr p hp

theorem setDependency_order {d} (h : CacheOk s) (hne : d ≠ c)
    (hs : qcow2CacheSetDependency depth c d s = some (r, s')) :
    CacheOk s' ∧ (∀ c', s.SameOffsets s' c') ∧ (∀ c' o, s'.view c' o = s.view c' o) ∧
      (r = none → (s'.cache c).depends = some d) ∧
      ∀ {next allocated linked dropped}, OrderInv next allocated linked dropped s →
        OrderInv next allocated linked dropped s' := by
  have hf := setDependency_flushed h hs
  split_ifs at hf with hr
  · obtain ⟨s₁, hf, hn, rfl⟩ := hf
    have hcache := cache_flags s₁ c (some d) (s₁.cache c).dependsOnFlush
    refine ⟨hf.ok.setDepends hne hn, fun c' => (hf.sameOffsets c').trans ⟨(hcache c').1,
      fun i => congrArg _ (congrFun (hcache c').2.1 i)⟩, fun c' o => ?_, fun _ => ?_,
      fun hinv => (hinv.keeps h hf.toKeeps).setDepends hne⟩
    · exact (view_flags s₁ c (some d) (s₁.cache c).dependsOnFlush c' o).trans (hf.view c' o)
    · simp
  · exact ⟨hf.ok, hf.sameOffsets, hf.view, fun hr' => absurd hr' hr,
      fun hinv => hinv.keeps h hf.toKeeps⟩

/-- What `update_refcount` does, its undoing included. -/
theorem updateRefcountAux_effect : ∀ (n : ℕ) (increase : Bool) (clusters : List (ℕ × ℕ))
    {s s' : CacheState TableLog} {r : Option Errno} {ignored : Bool}, CacheOk s →
    (∀ p ∈ clusters, p.2 ≠ 0) →
    updateRefcountAux depth n increase clusters s = some (r, ignored, s') →
    CacheOk s' ∧ s.SameOffsets s' .l2Table ∧ (∀ t, s'.view .l2Table t = s.view .l2Table t) ∧
      (r = none → clusters.length ≤ n → ∀ b e, e ∈ s'.view .refcountBlock b ↔
        e ∈ s.view .refcountBlock b ∨
          ∃ p ∈ clusters, p.2 = b ∧ e = (if increase then inc else dec) p.1) ∧
      (ignored = false → ∀ {next allocated linked dropped},
        OrderInv next allocated linked dropped s →
        (∀ p ∈ clusters, Loose next allocated linked s p.1) →
        OrderInv next allocated linked dropped s')
  | _, increase, [], s, s', r, ignored, h, _, hs => by
    have hs' : some (none, false, s) = some (r, ignored, s') := by
      rw [← hs]
      unfold updateRefcountAux
      rfl
    cases hs'
    exact ⟨h, ⟨rfl, fun _ => rfl⟩, fun _ => rfl, fun _ _ _ _ => by simp,
      fun _ _ _ _ _ hinv _ => hinv⟩
  | 0, increase, p :: clusters, s, s', r, ignored, h, _, hs => by
    cases hs
    exact ⟨h, ⟨rfl, fun _ => rfl⟩, fun _ => rfl, fun _ hl => absurd hl (by simp),
      fun _ _ _ _ _ hinv _ => hinv⟩
  | n + 1, increase, p :: clusters, s, s', r, ignored, h, hb, hs => by
    rw [updateRefcountAux] at hs
    dsimp only at hs
    -- the dependency
    have hdep : ∀ {dep s₁}, (if increase = true then some (none, s)
        else qcow2CacheSetDependency depth .refcountBlock .l2Table s) = some (dep, s₁) →
        CacheOk s₁ ∧ s.SameOffsets s₁ .l2Table ∧ (∀ c o, s₁.view c o = s.view c o) ∧
        (dep = none → increase = false → (s₁.cache .refcountBlock).depends = some .l2Table) ∧
        ∀ {next allocated linked dropped}, OrderInv next allocated linked dropped s →
          OrderInv next allocated linked dropped s₁ := by
      intro dep s₁ heq
      split_ifs at heq with hinc
      · cases heq
        exact ⟨h, ⟨rfl, fun _ => rfl⟩, fun _ _ => rfl,
          fun _ hf => absurd (hinc.symm.trans hf) (by decide), fun hinv => hinv⟩
      · obtain ⟨h1, h2, h3, h4, h5⟩ := setDependency_order h (by decide) heq
        exact ⟨h1, h2 _, h3, fun hd _ => h4 hd, h5⟩
    split at hs
    · cases hs
    · rename_i dep s₁ hdep₁
      obtain ⟨hok₁, hl₁, hv₁, hd₁, hinv₁⟩ := hdep hdep₁
      obtain ⟨edit, hedit⟩ := @exists_eq _ (if increase = true then inc else
        dec)
      rw [← hedit] at hs
      have hallowed : ∀ {next allocated linked}, (dep.isSome = false) →
          (∀ q ∈ p :: clusters, Loose next allocated linked s q.1) →
          ∀ q ∈ p :: clusters, Allowed next allocated linked s₁ (edit q.1) := by
        intro next allocated linked hdn hloose q hq
        have hq' := (hloose q hq).of_view (hv₁ _)
        cases increase with
        | true =>
          rw [hedit, if_pos rfl]
          exact ⟨q.1, .inl ⟨rfl, hq'.1⟩⟩
        | false =>
          rw [hedit, if_neg Bool.false_ne_true]
          refine ⟨q.1, .inr ⟨rfl, hq', fun t _ => .inr (hd₁ ?_ rfl)⟩⟩
          simpa using hdn
      have hheld : Held s₁ none := nofun
      split at hs
      · cases hs
      · rename_i rest s₂ hloop
        obtain ⟨he, hall⟩ := updateRefcountLoop_effect _ _ hok₁ hheld
          (fun q hq => ⟨hb q hq, hq⟩) hloop
        cases hs
        refine ⟨he.ok, hl₁.trans he.l2, fun t => (he.view_l2 t).trans (hv₁ _ t),
          fun _ _ b e => ?_, fun hign next allocated linked dropped hinv hloose => ?_⟩
        · rw [← hedit, ← hv₁]
          refine ⟨he.view_rc b e, fun h => h.elim (fun hold => he.mono b hold) ?_⟩
          rintro ⟨q, hq, rfl, rfl⟩
          exact hall rfl q hq
        · exact (he.inv (hinv₁ hinv) (hallowed hign hloose)).1
      · rename_i e rest s₂ hloop
        obtain ⟨he, -⟩ := updateRefcountLoop_effect _ _ hok₁ hheld (fun q hq => ⟨hb q hq, hq⟩) hloop
        split at hs
        · cases hs
        · rename_i r' ignored' s₃ hundo
          cases hs
          obtain ⟨h1, h2, h3, -, h5⟩ := updateRefcountAux_effect n _ _ he.ok
            (fun q hq => hb q (mem_of_mem_take hq)) hundo
          have hview : ∀ t, s₂.view .l2Table t = s.view .l2Table t :=
            fun t => (he.view_l2 t).trans (hv₁ _ t)
          refine ⟨h1, (hl₁.trans he.l2).trans h2, fun t => (h3 t).trans (hview t), nofun,
            fun hign next allocated linked dropped hinv hloose => ?_⟩
          rw [Bool.or_eq_false_iff] at hign
          refine h5 hign.2 (he.inv (hinv₁ hinv) (hallowed hign.1 hloose)).1 fun q hq => ?_
          exact (hloose q (mem_of_mem_take hq)).of_view hview

end UpdateRefcount

/-! ## The lists -/

variable {new : List (ℕ × ℕ)}

section Lists

variable {depth next next' : ℕ} {allocated : List (ℕ × ℕ)} {linked : List ((ℕ × ℕ) × ℕ)}
  {dropped : List (ℕ × ℕ)} {s s' : CacheState TableLog}

section

variable (h : OrderInv next allocated linked dropped s)
include h

theorem OrderInv.mono (hle : next ≤ next') {dropped'} (hsub : ∀ a ∈ ids dropped', a ∈ ids dropped) :
    OrderInv next' allocated linked dropped' s where
  fresh c o e he := (h.fresh c o e he).trans_le hle
  lists := ⟨fun a ha => (h.lists.1 a ha).trans_le hle, fun q hq => (h.lists.2.1 q hq).trans_le hle,
    fun a ha => (h.lists.2.2 a (hsub a ha)).trans_le hle⟩
  ofAllocated := h.ofAllocated
  ofLinked := h.ofLinked
  ofDropped a ha := h.ofDropped a (hsub a ha)
  counted := h.counted
  ref := h.ref
  dec := h.dec
  files := h.files

/-- New clusters are counted before anything refers to them. -/
theorem OrderInv.allocate
    (hnew : ∀ p ∈ new, p.1 < next ∧ (∀ q ∈ linked, q.1.1 ≠ p.1) ∧ p.1 ∉ ids dropped ∧
      .inc p.1 ∈ s.view .refcountBlock p.2 ∧ (∀ t, .ref p.1 ∉ s.view .l2Table t) ∧
      ∀ b, .dec p.1 ∉ s.view .refcountBlock b) :
    OrderInv next (new ++ allocated) linked dropped s := by
  have hids : ∀ {a}, a ∈ ids (new ++ allocated) → (∃ p ∈ new, p.1 = a) ∨ a ∈ ids allocated := by
    intro a ha
    rw [ids, map_append] at ha
    exact (mem_append.1 ha).imp mem_map.1 id
  refine ⟨h.fresh, ⟨fun a ha => ?_, h.lists.2⟩, fun p hp => ?_, fun q hq => ?_, fun a ha => ?_,
    fun a ha => ?_, h.ref, h.dec, h.files⟩
  · rcases hids ha with ⟨p, hp, rfl⟩ | ha
    · exact (hnew p hp).1
    · exact h.lists.1 a ha
  · rcases mem_append.1 hp with hp | hp
    · obtain ⟨-, -, -, h1, h2, -⟩ := hnew p hp
      exact ⟨h1, h2⟩
    · exact h.ofAllocated p hp
  · refine ⟨fun hf => ?_, (h.ofLinked q hq).2⟩
    rcases hids hf with ⟨p, hp, heq⟩ | hf
    · exact (hnew p hp).2.1 q hq heq.symm
    · exact (h.ofLinked q hq).1 hf
  · refine ⟨fun hf => ?_, (h.ofDropped a ha).2⟩
    rcases hids hf with ⟨p, hp, rfl⟩ | hf
    · exact (hnew p hp).2.2.1 ha
    · exact (h.ofDropped a ha).1 hf
  · rcases ha with ha | ha
    · rcases hids ha with ⟨p, hp, rfl⟩ | ha
      · exact (hnew p hp).2.2.2.2.2
      · exact h.counted a (.inl ha)
    · exact h.counted a (.inr ha)

/-- Allocating clusters with new numbers. -/
theorem OrderInv.alloc (hok : CacheOk s) (hle : next ≤ next')
    (hnew : ∀ p ∈ new, (next ≤ p.1 ∧ p.1 < next') ∧ p.2 ≠ 0)
    (hs : updateRefcount depth true new s = some (r, false, s')) :
    OrderInv next' (if r = none then new ++ allocated else allocated) linked dropped s' := by
  obtain ⟨-, -, hl2, hinc, hinv⟩ :=
    updateRefcountAux_effect _ _ _ hok (fun p hp => (hnew p hp).2) hs
  have hlinked : ∀ p ∈ new, ∀ q ∈ linked, q.1.1 ≠ p.1 := fun p hp q hq =>
    ((h.lists.2.1 q hq).trans_le (hnew p hp).1.1).ne
  have hno : ∀ p ∈ new, ∀ c o e, e ∈ s.view c o → e.number ≠ p.1 := fun p hp c o e he =>
    ((h.fresh c o e he).trans_le (hnew p hp).1.1).ne
  have hinv' : OrderInv next' allocated linked dropped s' := by
    refine hinv rfl (h.mono hle fun _ => id) fun p hp => ⟨(hnew p hp).1.2, fun hf => ?_,
      hlinked p hp, fun t hr => absurd rfl (hno p hp _ t _ hr)⟩
    exact absurd (h.lists.1 _ hf) (hnew p hp).1.1.not_gt
  split_ifs with hr
  · have hview := hinc hr le_rfl
    refine hinv'.allocate fun p hp => ⟨(hnew p hp).1.2, hlinked p hp, fun hf => ?_,
      (hview _ _).2 (.inr ⟨p, hp, rfl, rfl⟩), fun t hr => ?_, fun b hdec => ?_⟩
    · exact absurd (h.lists.2.2 _ hf) (hnew p hp).1.1.not_gt
    · exact absurd rfl (hno p hp _ t _ (hl2 t ▸ hr))
    · rcases (hview b _).1 hdec with hd | ⟨_, _, _, heq⟩
      · exact absurd rfl (hno p hp _ b _ hd)
      · nomatch heq
  · exact hinv'

/-- The clusters of a free are not referred to. -/
theorem OrderInv.free (hok : CacheOk s) {clusters} (hcl : ∀ p ∈ clusters, p ∈ dropped ∧ p.2 ≠ 0)
    (hs : updateRefcount depth false clusters s = some (r, false, s')) :
    OrderInv next allocated linked dropped s' := by
  obtain ⟨-, -, -, -, hinv⟩ := updateRefcountAux_effect _ _ _ hok (fun p hp => (hcl p hp).2) hs
  refine hinv rfl h fun p hp => ?_
  have hp' : p.1 ∈ ids dropped := mem_map.2 ⟨p, (hcl p hp).1, rfl⟩
  obtain ⟨h1, h2, h3⟩ := h.ofDropped _ hp'
  exact ⟨h.lists.2.2 _ hp', h1, h2, h3⟩

end

end Lists

/-! ## Every step keeps the order -/

section Step

variable {depth next : ℕ} {allocated : List (ℕ × ℕ)} {linked : List ((ℕ × ℕ) × ℕ)}
  {dropped : List (ℕ × ℕ)} {s s' : CacheState TableLog} {t : ℕ} {r : Option Errno}

theorem updateL2_ok (h : CacheOk s) (ht : t ≠ 0) (hs : updateL2 depth t edits s = some (r, s')) :
    CacheOk s' ∧ if r = none then ∃ s₁ i, Keeps s s₁ ∧ i < (s₁.cache .l2Table).size ∧
        (s₁.entry .l2Table i).offset = t ∧ Keeps (editTable .l2Table i (· ∪ edits) s₁) s'
      else Keeps s s' := by
  unfold updateL2 at hs
  split at hs
  · cases hs
  · rename_i e s₁ hget
    cases hs
    have hk := (get_keeps h ht hget).1
    exact ⟨hk.ok, by rwa [if_neg nofun]⟩
  · rename_i i s₁ hget
    cases hs
    obtain ⟨hk, hi, -⟩ := get_keeps h ht hget
    obtain ⟨hi, hoff⟩ := hi i rfl
    have hok := edit_ok hk.ok hi (hoff.symm ▸ ht) edits
    have hk' := put hok .l2Table i
    exact ⟨hk'.ok, by rw [if_pos rfl]; exact ⟨s₁, i, hk, hi, hoff, hk'⟩⟩

/-- An L2 table is updated as a whole. -/
theorem OrderInv.updateL2 (h : OrderInv next allocated linked dropped s) (hok : CacheOk s)
    (ht : t ≠ 0) {old} (hnew : ∀ p ∈ new, p ∈ allocated ∧ Counted s p.1)
    (hold : ∀ p ∈ old, (p, t) ∈ linked)
    (hs : updateL2 depth t (refs new ∪ unrefs old) s = some (r, s')) :
    if r = none then OrderInv next (allocated.filter fun p => p.1 ∉ ids new)
      ((new.map (·, t) ++ linked).filter fun q => q.1.1 ∉ ids old) (old ++ dropped) s'
    else OrderInv next allocated linked dropped s' := by
  have hu := (updateL2_ok hok ht hs).2
  split_ifs at hu ⊢ with hr
  · obtain ⟨s₁, i, hk, hi, hoff, hk'⟩ := hu
    have ho : (s₁.entry .l2Table i).offset ≠ 0 := hoff.symm ▸ ht
    have hinv := (h.keeps hok hk).l2 new old hk.ok hi ho
      (fun p hp => ⟨(hnew p hp).1, (hnew p hp).2.keeps hk⟩) (by rwa [hoff])
    rw [hoff] at hinv
    exact hinv.keeps (edit_ok hk.ok hi ho _) hk'
  · exact h.keeps hok hu

theorem linkL2_ok {cow ignored} (h : CacheOk s) (ht : t ≠ 0)
    (hs : qcow2AllocClusterLinkL2 depth cow t edits s = some (r, ignored, s')) :
    CacheOk s' ∧ ∃ s₁, CacheOk s₁ ∧ updateL2 depth t edits s₁ = some (r, s') ∧
      (∀ c o, s₁.view c o = s.view c o) ∧
      (ignored = false → (s₁.cache .l2Table).depends = some .refcountBlock) ∧
      (OrderInv next allocated linked dropped s → OrderInv next allocated linked dropped s₁) := by
  unfold qcow2AllocClusterLinkL2 at hs
  obtain ⟨s₀, hs₀⟩ := @exists_eq _ (if cow = true then qcow2CacheDependsOnFlush .l2Table s else s)
  have hk₀ : Keeps s s₀ := by
    rw [hs₀]
    split_ifs
    · exact (Flushed.setFlags h (.inl rfl)).toKeeps
    · exact (Flushed.refl h).toKeeps
  rw [← hs₀] at hs
  dsimp only at hs
  split at hs
  · cases hs
  rename_i dep s₁ hdep
  obtain ⟨⟨r', s₂⟩, hu, heq⟩ := map_eq_some_iff.1 hs
  obtain ⟨rfl, hres⟩ := Prod.mk.inj heq
  cases hres
  obtain ⟨h1, -, h3, h4, h5⟩ := setDependency_order hk₀.ok (by decide) hdep
  refine ⟨(updateL2_ok h1 ht hu).1, s₁, h1, hu, fun c o => (h3 c o).trans (hk₀.view c o),
    fun hi => h4 (by simpa using hi), fun hinv => h5 (hinv.keeps h hk₀)⟩

theorem mem_numbered {blocks : List ℕ} (hz : 0 ∉ blocks) {p} (hp : p ∈ numbered next blocks) :
    (next ≤ p.1 ∧ p.1 < next + blocks.length) ∧ p.2 ≠ 0 := by
  obtain ⟨ha, hb⟩ := of_mem_zip hp
  rw [mem_range'_1] at ha
  exact ⟨ha, fun hb0 => hz (hb0 ▸ hb)⟩

/-- The clusters are counted, and the table depends on the refcounts, when it refers to them. -/
theorem compressed_order {new more ignored} (h : CacheOk s) (ht : t ≠ 0) (hn : 0 ∉ new)
    (hm : 0 ∉ more)
    (hs : qcow2AllocCompressedClusterOffset depth t (numbered next new)
      (numbered (next + new.length) more) s = some (r, ignored, s')) :
    CacheOk s' ∧ (ignored = false → OrderInv next allocated linked dropped s →
      OrderInv (next + new.length + more.length) allocated (if r = none then
        (numbered next new ++ numbered (next + new.length) more).map (·, t) ++ linked else linked)
        dropped s') := by
  obtain ⟨new', hnew'⟩ := @exists_eq _ (numbered next new)
  obtain ⟨more', hmore'⟩ := @exists_eq _ (numbered (next + new.length) more)
  have hnew : ∀ p ∈ new', (next ≤ p.1 ∧ p.1 < next + new.length) ∧ p.2 ≠ 0 :=
    fun p hp => mem_numbered hn (hnew' ▸ hp)
  have hmore : ∀ p ∈ more', (next + new.length ≤ p.1 ∧
      p.1 < next + new.length + more.length) ∧ p.2 ≠ 0 := fun p hp => mem_numbered hm (hmore' ▸ hp)
  rw [← hnew', ← hmore'] at hs ⊢
  unfold qcow2AllocCompressedClusterOffset at hs
  split at hs
  · cases hs
  · rename_i e s₁ hget
    cases hs
    have hk := (get_keeps h ht hget).1
    exact ⟨hk.ok, fun _ hinv => (hinv.keeps h hk).mono (by omega) fun _ => id⟩
  rename_i i s₁ hget
  obtain ⟨hk, hi, -⟩ := get_keeps h ht hget
  obtain ⟨hi, hoff⟩ := hi i rfl
  split at hs
  · cases hs
  · rename_i e ign s₂ hup
    cases hs
    have hok₂ := (updateRefcountAux_effect _ _ _ hk.ok (fun p hp => (hnew p hp).2) hup).1
    refine ⟨(put hok₂ _ _).ok, fun hign hinv => ?_⟩
    subst hign
    have hinv₂ := (hinv.keeps h hk).alloc hk.ok (Nat.le_add_right _ _) hnew hup
    exact (hinv₂.mono (Nat.le_add_right _ _) fun _ => id).keeps hok₂ (put hok₂ _ _)
  rename_i ign s₂ hup
  obtain ⟨hok₂, hl₂, -, -, -⟩ :=
    updateRefcountAux_effect _ _ _ hk.ok (fun p hp => (hnew p hp).2) hup
  split at hs
  · cases hs
  rename_i r' ign' s₃ hup'
  obtain ⟨hok₃, hl₃, -, -, -⟩ :=
    updateRefcountAux_effect _ _ _ hok₂ (fun p hp => (hmore p hp).2) hup'
  split at hs
  · cases hs
  rename_i dep s₄ hdep
  cases hs
  obtain ⟨hok₄, hl₄, -, hd₄, hinv₄⟩ := setDependency_order hok₃ (by decide) hdep
  have hl := (hl₂.trans hl₃).trans (hl₄ _)
  have hi₄ : i < (s₄.cache .l2Table).size := hl.1.symm ▸ hi
  have hoff₄ : (s₄.entry .l2Table i).offset = t := (hl.2 i).trans hoff
  have hedit := edit_ok hok₄ hi₄ (hoff₄.symm ▸ ht) (refs (new' ++ more'))
  refine ⟨(put hedit _ _).ok, fun hign hinv => ?_⟩
  simp only [Bool.or_eq_false_iff] at hign
  obtain ⟨⟨rfl, hr, rfl⟩, hign⟩ := hign
  obtain rfl : r' = none := by simpa using hr
  have hinv₂ := (hinv.keeps h hk).alloc hk.ok (Nat.le_add_right _ _) hnew hup
  have hinv' := hinv₄ (hinv₂.alloc hok₂ (Nat.le_add_right _ _) hmore hup')
  rw [if_pos rfl, if_pos rfl] at hinv'
  rw [if_pos rfl]
  have hmem : ∀ p ∈ new' ++ more', p ∈ more' ++ (new' ++ allocated) := by
    intro p hp
    grind
  have hinv'' := hinv'.l2 (new' ++ more') [] hok₄ hi₄ (hoff₄.symm ▸ ht) (fun p hp => ⟨hmem p hp,
    .inr ⟨hd₄ (by simpa using hign), p.2, (hinv'.ofAllocated p (hmem p hp)).1⟩⟩) nofun
  have hfilter : (more' ++ (new' ++ allocated)).filter (fun p => p.1 ∉ ids (new' ++ more')) =
      allocated := by
    have hold : ∀ p ∈ allocated, p.1 ∉ ids (new' ++ more') := by
      intro p hp hid
      have := hinv.lists.1 p.1 (mem_map.2 ⟨p, hp, rfl⟩)
      obtain ⟨q, hq, heq⟩ := mem_map.1 hid
      rcases mem_append.1 hq with hq | hq
      · have := hnew q hq
        omega
      · have := hmore q hq
        omega
    have hin : ∀ l : List (ℕ × ℕ), (∀ p ∈ l, p ∈ new' ++ more') →
        l.filter (fun p => p.1 ∉ ids (new' ++ more')) = [] := by
      intro l hl
      refine filter_eq_nil_iff.2 fun p hp hno => of_decide_eq_true hno ?_
      exact mem_map.2 ⟨p, hl p hp, rfl⟩
    rw [filter_append, filter_append, hin more' fun p => mem_append_right _,
      hin new' fun p => mem_append_left _, filter_eq_self.2 fun p hp => decide_eq_true (hold p hp)]
    rfl
  rw [hoff₄, hfilter] at hinv''
  refine OrderInv.keeps ?_ hedit (put hedit _ _)
  simpa [ids, unrefs] using hinv''

end Step

/-! ## Runs -/

/-- What holds in every state : the order, as long as no failure was ignored. -/
structure OrderOk (s : OrderState) : Prop where
  cache : CacheOk s.cache
  inv : s.ignored = false → OrderInv s.next s.allocated s.linked s.dropped s.cache

/-- A step of the driver keeps the invariant, whatever fails in it. -/
theorem orderStep_ok {depth s s'} (op : OrderOp) (io : List IoResult)
    (h : OrderOk s) (hs : orderStep depth (op, io) s = some s') : OrderOk s' := by
  have hio := (Flushed.io h.cache io).toKeeps
  have hinv : s.ignored = false →
      OrderInv s.next s.allocated s.linked s.dropped { s.cache with io := io } :=
    fun hign => (h.inv hign).keeps h.cache hio
  cases op with
  | alloc blocks =>
    rw [orderStep] at hs
    split_ifs at hs with hz
    obtain ⟨⟨r, ignored, cache⟩, hup, rfl⟩ := map_eq_some_iff.1 hs
    have hnew : ∀ p ∈ numbered s.next blocks,
        (s.next ≤ p.1 ∧ p.1 < s.next + blocks.length) ∧ p.2 ≠ 0 := fun _ => mem_numbered hz
    refine ⟨(updateRefcountAux_effect _ _ _ hio.ok (fun p hp => (hnew p hp).2) hup).1,
      fun hign => ?_⟩
    obtain ⟨hign', rfl⟩ := Bool.or_eq_false_iff.1 hign
    exact (hinv hign').alloc hio.ok (Nat.le_add_right _ _) hnew hup
  | link cow t new old =>
    rw [orderStep] at hs
    split_ifs at hs with hcond
    obtain ⟨ht, hnew, hold⟩ := hcond
    obtain ⟨⟨r, ignored, cache⟩, hl, rfl⟩ := map_eq_some_iff.1 hs
    obtain ⟨hok, s₁, hok₁, hu, hv₁, hd₁, hinv₁⟩ := linkL2_ok hio.ok ht hl
    have hres : (s.ignored || ignored) = false →
        if r = none then OrderInv s.next (s.allocated.filter fun p => p.1 ∉ ids new)
          ((new.map (·, t) ++ s.linked).filter fun q => q.1.1 ∉ ids old) (old ++ s.dropped) cache
        else OrderInv s.next s.allocated s.linked s.dropped cache := by
      intro hign
      obtain ⟨hign, hign'⟩ := Bool.or_eq_false_iff.1 hign
      refine (hinv₁ (hinv hign)).updateL2 hok₁ ht (fun p hp => ⟨hnew p hp, ?_⟩) hold hu
      exact .inr ⟨hd₁ hign', p.2, ((hinv₁ (hinv hign)).ofAllocated p (hnew p hp)).1⟩
    dsimp only
    split_ifs at hres ⊢ <;> exact ⟨hok, hres⟩
  | compress t new more =>
    rw [orderStep] at hs
    split_ifs at hs with hcond
    obtain ⟨⟨r, ignored, cache⟩, hc, rfl⟩ := map_eq_some_iff.1 hs
    obtain ⟨hok, hinv'⟩ := compressed_order hio.ok hcond.1 hcond.2.1 hcond.2.2 hc
    refine ⟨hok, fun hign => ?_⟩
    obtain ⟨hign, hign'⟩ := Bool.or_eq_false_iff.1 hign
    exact hinv' hign' (hinv hign)
  | discard t old =>
    rw [orderStep] at hs
    split_ifs at hs with hcond
    obtain ⟨⟨r, cache⟩, hu, rfl⟩ := map_eq_some_iff.1 hs
    have hok := (updateL2_ok hio.ok hcond.1 hu).1
    have hres : s.ignored = false →
        if r = none then OrderInv s.next s.allocated (s.linked.filter fun q => q.1.1 ∉ ids old)
          (old ++ s.dropped) cache
        else OrderInv s.next s.allocated s.linked s.dropped cache := by
      intro hign
      have hu' : updateL2 depth t (refs [] ∪ unrefs old) { s.cache with io := io } =
          some (r, cache) := by simpa [refs] using hu
      simpa [ids] using (hinv hign).updateL2 hio.ok hcond.1 (by simp) hcond.2 hu'
    dsimp only
    split_ifs at hres ⊢ <;> exact ⟨hok, hres⟩
  | free clusters =>
    rw [orderStep] at hs
    split_ifs at hs with hcond
    obtain ⟨⟨r, ignored, cache⟩, hup, rfl⟩ := map_eq_some_iff.1 hs
    refine ⟨(updateRefcountAux_effect _ _ _ hio.ok (fun p hp => (hcond p hp).2) hup).1,
      fun hign => ?_⟩
    obtain ⟨hign', rfl⟩ := Bool.or_eq_false_iff.1 hign
    refine ((hinv hign').free hio.ok hcond hup).mono le_rfl fun a ha => ?_
    obtain ⟨p, hp, rfl⟩ := mem_map.1 ha
    exact mem_map.2 ⟨p, (mem_filter.1 hp).1, rfl⟩
  | load c o =>
    rw [orderStep] at hs
    split_ifs at hs with ho
    obtain ⟨⟨r, cache⟩, hget, rfl⟩ := map_eq_some_iff.1 hs
    have hk := (get_keeps hio.ok ho hget).1
    dsimp only
    split
    · rename_i i
      have hput := hk.trans (put hk.ok c i)
      exact ⟨hput.ok, fun hign => (hinv hign).keeps hio.ok hput⟩
    · exact ⟨hk.ok, fun hign => (hinv hign).keeps hio.ok hk⟩
  | flush c =>
    obtain ⟨⟨r, cache⟩, hf, rfl⟩ := map_eq_some_iff.1 hs
    have hk := (qcow2CacheFlush_flushed depth hio.ok hf).1.toKeeps
    exact ⟨hk.ok, fun hign => (hinv hign).keeps hio.ok hk⟩

theorem mem_oldLinks {old q} : q ∈ oldLinks old ↔ old[q.1.1]? = some (q.1.2, q.2) := by
  obtain ⟨⟨a, b⟩, t⟩ := q
  unfold oldLinks
  rw [List.mem_map]
  constructor
  · rintro ⟨⟨⟨b', t'⟩, a'⟩, hmem, heq⟩
    obtain ⟨rfl, rfl, rfl⟩ : a' = a ∧ b' = b ∧ t' = t := by simpa [and_assoc] using heq
    exact mem_zipIdx_iff_getElem?.1 hmem
  · exact fun h => ⟨((b, t), a), mem_zipIdx_iff_getElem?.2 h, rfl⟩

/-- The order holds when the image is opened. -/
theorem init_ok (size : CacheId → ℕ) (old : List (ℕ × ℕ)) : OrderOk (init size old) := by
  obtain ⟨s, hs⟩ := @exists_eq _ (init size old)
  have hentry : ∀ c i, s.cache.entry c i = ⟨∅, 0, false, 0, 0⟩ := fun c i => by rw [hs]; rfl
  have hdep : ∀ c, (s.cache.cache c).depends = none := fun c => by rw [hs]; rfl
  have hok : CacheOk s.cache :=
    ⟨fun c i j _ _ h0 => absurd (by rw [hentry]) h0, fun c i _ h0 => absurd (by rw [hentry]) h0,
      fun c i _ h0 => absurd (by rw [hentry]) h0, fun _ _ => by rw [hs]; exact le_rfl,
      fun c d hd => by rw [hdep] at hd; cases hd⟩
  have hview : ∀ c o, s.cache.view c o = s.cache.written c o := fun c o =>
    hok.view_eq_written (fun i _ => .inr (by rw [hentry])) o
  have hlt : ∀ q ∈ oldLinks old, q.1.1 < old.length := fun q hq =>
    (List.getElem?_eq_some_iff.1 (mem_oldLinks.1 hq)).1
  have hl2 : ∀ {t e}, e ∈ s.cache.written .l2Table t ↔
      ∃ q ∈ oldLinks old, q.2 = t ∧ e = .ref q.1.1 := by
    intro t e
    rw [hs]
    simp only [init, refs, List.mem_toFinset, List.map_map, List.mem_map,
      List.mem_filter, Function.comp, decide_eq_true_eq, and_assoc]
    exact exists_congr fun q => and_congr_right fun _ => and_congr_right fun _ => eq_comm
  have hrc : ∀ {b e}, e ∈ s.cache.written .refcountBlock b ↔
      ∃ q ∈ oldLinks old, q.1.2 = b ∧ e = .inc q.1.1 := by
    intro b e
    rw [hs]
    simp only [init, List.mem_toFinset, List.mem_map, List.mem_filter, decide_eq_true_eq, and_assoc]
    exact exists_congr fun q => and_congr_right fun _ => and_congr_right fun _ => eq_comm
  have hdec : ∀ a b, .dec a ∉ s.cache.written .refcountBlock b := by
    intro a b hd
    obtain ⟨q, -, -, heq⟩ := hrc.1 hd
    cases heq
  have hinc : ∀ a t, .ref a ∈ s.cache.written .l2Table t →
      ∃ b, .inc a ∈ s.cache.stable .refcountBlock b := by
    intro a t hr
    obtain ⟨q, hq, -, heq⟩ := hl2.1 hr
    obtain rfl := ref.inj heq
    have hst : s.cache.stable = s.cache.written := by rw [hs]; rfl
    rw [hst]
    exact ⟨q.1.2, hrc.2 ⟨q, hq, rfl, rfl⟩⟩
  obtain ⟨hnext, hallocated, hlinked, hdropped⟩ : s.next = old.length ∧ s.allocated = [] ∧
      s.linked = oldLinks old ∧ s.dropped = [] := by
    rw [hs]
    exact ⟨rfl, rfl, rfl, rfl⟩
  rw [← hs]
  refine ⟨hok, fun _ => ?_⟩
  rw [hnext, hallocated, hlinked, hdropped]
  refine ⟨fun c o e he => ?_, ⟨nofun, hlt, nofun⟩, nofun, fun q hq => ⟨nofun, fun t hr => ?_⟩,
    nofun, fun a _ b => ?_, fun a t hr => ?_, fun a b t hd => ?_, fun f hf => ?_⟩
  · rw [hview] at he
    cases c with
    | l2Table =>
      obtain ⟨q, hq, -, rfl⟩ := hl2.1 he
      exact hlt q hq
    | refcountBlock =>
      obtain ⟨q, hq, -, rfl⟩ := hrc.1 he
      exact hlt q hq
  · rw [hview] at hr
    obtain ⟨q', hq', rfl, heq⟩ := hl2.1 hr
    have h1 := mem_oldLinks.1 hq
    rw [ref.inj heq, mem_oldLinks.1 hq'] at h1
    exact (Prod.mk.inj (Option.some.inj h1)).2
  · rw [hview]
    exact hdec a b
  · rw [hview] at hr
    exact .inl (hinc a t hr)
  · rw [hview] at hd
    exact absurd hd (hdec a b)
  · have hfiles : s.cache.files = [(s.cache.written, s.cache.stable)] := by rw [hs]; rfl
    rw [hfiles] at hf
    obtain rfl := List.mem_singleton.1 hf
    exact ⟨fun c o => by rw [hview], hinc, fun a b t hd => absurd hd (hdec a b)⟩

/-- The caches never depend on each other, so that flushing one returns. As long as no failed
call of `qcow2_cache_set_dependency` and no failed increase for a compressed cluster was ignored,
the file was safe at every moment. -/
theorem metadata_order (depth : ℕ) (size : CacheId → ℕ) (old : List (ℕ × ℕ)) (s : OrderState)
    (h : Reach (orderStep (depth + 2)) (fun _ _ => True) (OrderState.init size old) s) :
    (∀ c d, (s.cache.cache c).depends = some d → d ≠ c ∧ (s.cache.cache d).depends = none) ∧
      (∀ c, (qcow2CacheFlush (depth + 2) c s.cache).isSome = true) ∧
      (s.ignored = false → ∀ f ∈ s.cache.files, CrashSafe s.cache.view f) := by
  have hok : OrderOk s := h.invariant (init_ok size old)
    fun s i s' hs _ hstep => orderStep_ok i.1 i.2 hs hstep
  exact ⟨hok.cache.acyclic, qcow2CacheFlush_isSome hok.cache depth,
    fun hign f hf => ((hok.inv hign).files f hf).2⟩

/-- A failed write and a failed flush that was not for a dependency. -/
def noticedFailures : List (OrderOp × List IoResult) :=
  [(.alloc [1], []), (.link true 2 [(0, 1)] [], []),
    (.flush .l2Table, [⟨none, true⟩, ⟨some .eio, true⟩]), (.flush .l2Table, []),
    (.discard 2 [(0, 1)], []), (.free [(0, 1)], []), (.compress 2 [1] [1], []),
    (.flush .refcountBlock, [])]

/-- The witness : failures of other requests, and a decrease in the file at the end. -/
theorem metadata_order_noticed :
    ∃ s, Reach (orderStep 2) (fun _ _ => True) (OrderState.init (fun _ => 1) []) s ∧
      .dec 0 ∈ s.cache.written .refcountBlock 1 ∧ s.ignored = false ∧
      ∀ f ∈ s.cache.files, CrashSafe s.cache.view f := by
  have hrun : (noticedFailures.foldlM (fun s op => orderStep 2 op s)
      (init (fun _ => 1) [])).map (fun s =>
        (decide (.dec 0 ∈ s.cache.written .refcountBlock 1), s.ignored)) = some (true, false) := by
    decide +kernel
  obtain ⟨s, hs, heq⟩ := Option.map_eq_some_iff.1 hrun
  obtain ⟨hdec, hign⟩ := Prod.mk.inj heq
  have hreach : Reach (orderStep 2) (fun _ _ => True) (init (fun _ => 1) []) s :=
    Reach.foldlM noticedFailures (fun _ _ _ => trivial) Reach.refl hs
  exact ⟨s, hreach, of_decide_eq_true hdec, hign,
    (metadata_order 0 (fun _ => 1) [] s hreach).2.2 hign⟩

/-- The cluster is linked and in the file. A second one makes the L2 tables depend on the
refcounts. Then the first one is discarded, and the flush before its refcount is decreased
fails. -/
def ignoredFailure : List (OrderOp × List IoResult) :=
  [(.alloc [1], []), (.link false 2 [(0, 1)] [], []), (.flush .l2Table, []),
    (.alloc [1], []), (.link false 2 [(1, 1)] [], []), (.discard 2 [(0, 1)], []),
    (.free [(0, 1)], [⟨some .eio, false⟩]), (.flush .refcountBlock, [])]

/-- The refcount in the file is decreased while a table in the file refers to the cluster. -/
theorem metadata_order_fail :
    ∃ s, Reach (orderStep 2) (fun _ _ => True) (OrderState.init (fun _ => 1) []) s ∧
      .dec 0 ∈ s.cache.written .refcountBlock 1 ∧ .ref 0 ∈ s.cache.written .l2Table 2 ∧
      .unref 0 ∉ s.cache.written .l2Table 2 ∧
      ¬CrashSafe s.cache.view (s.cache.written, s.cache.stable) := by
  have hrun : (ignoredFailure.foldlM (fun s op => orderStep 2 op s)
      (init (fun _ => 1) [])).map (fun s =>
        (decide (.dec 0 ∈ s.cache.written .refcountBlock 1),
          decide (.ref 0 ∈ s.cache.written .l2Table 2),
          decide (.unref 0 ∈ s.cache.written .l2Table 2),
          decide (.ref 0 ∈ s.cache.view .l2Table 2))) = some (true, true, false, true) := by
    decide +kernel
  obtain ⟨s, hs, heq⟩ := Option.map_eq_some_iff.1 hrun
  obtain ⟨hdec, hrest⟩ := Prod.mk.inj heq
  obtain ⟨href, hrest⟩ := Prod.mk.inj hrest
  obtain ⟨hunref, hview⟩ := Prod.mk.inj hrest
  refine ⟨s, Reach.foldlM ignoredFailure (fun _ _ _ => trivial) Reach.refl hs,
    of_decide_eq_true hdec, of_decide_eq_true href, of_decide_eq_false hunref, fun hsafe => ?_⟩
  exact of_decide_eq_false hunref
    (hsafe.dec 0 1 2 (of_decide_eq_true hdec) (of_decide_eq_true hview))

/-- In every state of a run, whatever has failed before, a flush returns and the program sees the
same tables. If it succeeds, the tables of its cache are in the file for good, as they are seen. -/
theorem cacheFlush_durable (depth : ℕ) (size : CacheId → ℕ) (old : List (ℕ × ℕ)) (s : OrderState)
    (h : Reach (orderStep (depth + 2)) (fun _ _ => True) (OrderState.init size old) s)
    (c : CacheId) (io : List IoResult) :
    ∃ r s', qcow2CacheFlush (depth + 2) c { s.cache with io := io } = some (r, s') ∧
      (∀ d o, s'.view d o = s.cache.view d o ∧ s.cache.stable d o ⊆ s'.stable d o) ∧
      (r = none → ∀ o, s'.written c o = s.cache.view c o ∧ s'.stable c o = s.cache.view c o) := by
  have hok : OrderOk s := h.invariant (init_ok size old)
    fun s i s' hs _ hstep => orderStep_ok i.1 i.2 hs hstep
  have hio := Flushed.io hok.cache io
  obtain ⟨⟨r, s'⟩, hrun⟩ := Option.isSome_iff_exists.1 (qcow2CacheFlush_isSome hio.ok depth c)
  obtain ⟨hf, hstable⟩ := qcow2CacheFlush_flushed _ hio.ok hrun
  have hall := hio.trans hf
  refine ⟨r, s', hrun, fun d o => ⟨hall.view d o, hall.stable d o⟩, fun hr o => ?_⟩
  have hst : s'.stable c o ≤ s'.written c o := hf.ok.stable_le c o
  have hw : s'.written c o ≤ s'.view c o := hf.ok.written_le_view o
  have hv : s'.view c o ≤ s'.stable c o := hstable hr o
  rw [← hall.view]
  exact ⟨hw.antisymm (hv.trans hst), (hst.trans hw).antisymm hv⟩

/-- A flush after the count of one new cluster. -/
theorem cacheFlush_durable_alloc :
    ∃ s, orderStep 2 (.alloc [1], []) (OrderState.init (fun _ => 1) []) = some s ∧
      ∃ s', qcow2CacheFlush 2 .refcountBlock { s.cache with io := [] } = some (none, s') ∧
        s'.stable .refcountBlock 1 = s.cache.view .refcountBlock 1 := by
  obtain ⟨r, s', hrun, -, hs⟩ := cacheFlush_durable 0 (fun _ => 1) [] _
    (.tail (i := (.alloc [1], [])) .refl trivial rfl) .refcountBlock []
  obtain rfl : none = r := congrArg Prod.fst (Option.some.inj hrun)
  exact ⟨_, rfl, s', hrun, (hs rfl 1).2⟩

end QemuArm
