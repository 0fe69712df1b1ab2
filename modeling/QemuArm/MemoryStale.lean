import QemuArm.MemoryApi
import QemuArm.Reach

/-!
# Flat views that are not stale

Every call of the memory API decides for itself whether an update is pending. The decision
is right when the hierarchy is rendered as before, and `Similar` says when it is : a
disabled region is never rendered, so neither its fields nor its place in a list matter,
and the address of a region matters to its parent and to an address space whose root it
is, but not to an alias, which subtracts it first (`renderMemoryRegion_congr`).

`flatViews_current` : whenever no transaction is open, every address space has the flat view of
its root. It needs that no call moves an enabled root of an address space without saying
so, which `memory_region_set_address` and `memory_region_add_subregion` do when the root has
no parent, or a disabled one (`Announced`).
-/

namespace QemuArm

open List Option Function Regions MemoryState

open AddressArith

/-! ## Hierarchies that render alike -/

/-- An alias subtracts the address of its target, and the target adds it again. -/
theorem Int128.add_sub_sub_cancel (b x o : Int128) :
    Int128.add (Int128.sub (Int128.sub b x) o) x = Int128.sub b o := by
  rw [← ofInt_toInt b, ← ofInt_toInt x, ← ofInt_toInt o, sub_ofInt, sub_ofInt, add_ofInt, sub_ofInt]
  congr 1
  omega

/-- The fields of an enabled region that its rendering reads. -/
structure SameFields (mem mem' : Memory) (p : MrPtr) : Prop where
  size : (mem p).size = (mem' p).size
  terminates : (mem p).terminates = (mem' p).terminates
  romdMode : (mem p).romdMode = (mem' p).romdMode
  readonly : (mem p).readonly = (mem' p).readonly
  aliasMr : (mem p).aliasMr = (mem' p).aliasMr
  aliasOffset : (mem p).aliasOffset = (mem' p).aliasOffset
  dirtyLogMask : (mem p).dirtyLogMask = (mem' p).dirtyLogMask

/-- Two heaps whose enabled regions have the same fields and the same enabled subregions,
at the same addresses. -/
structure Similar (mem mem' : Memory) : Prop where
  enabled : ∀ p, (mem p).enabled = (mem' p).enabled
  fields : ∀ p, (mem p).enabled → SameFields mem mem' p
  subregions : ∀ p, (mem p).enabled → (mem p).subregions.filter (fun q => (mem q).enabled) =
    (mem' p).subregions.filter (fun q => (mem' q).enabled)
  addr : ∀ p, (mem p).enabled → ∀ q ∈ (mem p).subregions, (mem q).enabled →
    (mem q).addr = (mem' q).addr

variable {mem : Memory} {p : MrPtr}

theorem renderMemoryRegion_disabled {α : Type} [AddressArith α] (h : (mem p).enabled = false)
    (depth : ℕ) (view : FlatView α) (base : α) (clip : AddrRange α) (readonly : Bool) :
    renderMemoryRegion mem depth view p base clip readonly = .ok view := by
  cases depth <;> simp [renderMemoryRegion, h]

/-- Items that change nothing can be left out of a loop. -/
theorem foldlM_filter_of_skip {β γ : Type} {f : γ → β → Except RenderError γ} (keep : β → Bool)
    (h : ∀ b, keep b = false → ∀ c, f c b = .ok c) : ∀ (l : List β) (c : γ),
    l.foldlM f c = (l.filter keep).foldlM f c
  | [], c => rfl
  | b :: l, c => by
    cases hb : keep b with
    | false =>
      rw [filter_cons_of_neg (by simp [hb]), foldlM_cons, h b hb c]
      exact foldlM_filter_of_skip keep h l c
    | true =>
      rw [filter_cons_of_pos hb, foldlM_cons, foldlM_cons]
      exact congrArg (f c b >>= ·) (funext fun c' => foldlM_filter_of_skip keep h l c')

theorem foldlM_congr {β γ : Type} {f g : γ → β → Except RenderError γ} : ∀ (l : List β) (c : γ),
    (∀ b ∈ l, ∀ c, f c b = g c b) → l.foldlM f c = l.foldlM g c
  | [], c, _ => rfl
  | b :: l, c, h => by
    rw [foldlM_cons, foldlM_cons, h b mem_cons_self c]
    exact congrArg (g c b >>= ·) (funext fun c' => foldlM_congr l c' fun b' hb' =>
      h b' (mem_cons_of_mem b hb'))

/-- Similar heaps render alike, from bases that put the region at the same address. -/
theorem renderMemoryRegion_congr {mem' : Memory} (hs : Similar mem mem') :
    ∀ (depth : ℕ) (view : FlatView Int128) (p : MrPtr) (base base' : Int128)
      (clip : AddrRange Int128) (readonly : Bool),
    ((mem p).enabled → add base (make64 (mem p).addr) = add base' (make64 (mem' p).addr)) →
    renderMemoryRegion mem depth view p base clip readonly =
      renderMemoryRegion mem' depth view p base' clip readonly
  | 0, view, p, base, base', clip, readonly, _ => by
    rw [renderMemoryRegion, renderMemoryRegion, hs.enabled p]
  | depth + 1, view, p, base, base', clip, readonly, hbase => by
    by_cases hen : (mem p).enabled
    swap
    · have hdis : (mem p).enabled = false := by simpa using hen
      rw [renderMemoryRegion_disabled hdis,
        renderMemoryRegion_disabled ((hs.enabled p).symm.trans hdis)]
    obtain ⟨f1, f2, f3, f4, f5, f6, f7⟩ := hs.fields p hen
    rw [renderMemoryRegion, renderMemoryRegion, ← hs.enabled p, ← f1, ← f2, ← f3, ← f4, ← f5, ← f6,
      ← f7, hbase hen]
    generalize add base' (make64 (mem' p).addr) = b
    dsimp only
    split
    · rfl
    split
    · rfl
    cases hal : (mem p).aliasMr with
    | some orig =>
      refine renderMemoryRegion_congr hs depth view orig _ _ _ _ fun _ => ?_
      exact (Int128.add_sub_sub_cancel b _ _).trans (Int128.add_sub_sub_cancel b _ _).symm
    | none =>
      rw [foldlM_filter_of_skip (fun q => (mem q).enabled)
          (fun q hq view => renderMemoryRegion_disabled hq _ _ _ _ _),
        foldlM_filter_of_skip (fun q => (mem' q).enabled)
          (fun q hq view => renderMemoryRegion_disabled hq _ _ _ _ _) (mem' p).subregions,
        ← hs.subregions p hen]
      rw [foldlM_congr ((mem p).subregions.filter fun q => (mem q).enabled) view fun q hq view =>
        renderMemoryRegion_congr hs depth view q b b _ _ fun hqen => by
          rw [hs.addr p hen q (mem_of_mem_filter hq) hqen]]

/-- Similar heaps have the same flat views, for a root that has not moved. -/
theorem generateMemoryTopology_congr {mem' : Memory} (hs : Similar mem mem') (stack : ℕ) {root}
    (haddr : ∀ p, root = some p → (mem p).enabled → (mem p).addr = (mem' p).addr) :
    (generateMemoryTopology mem stack root : Except RenderError (FlatView Int128)) =
      generateMemoryTopology mem' stack root := by
  cases root with
  | none => rfl
  | some p =>
    have hr := renderMemoryRegion_congr hs stack [] p zero zero ⟨zero, two64⟩ false
      fun hen => by rw [haddr p rfl hen]
    simp only [generateMemoryTopology, hr]

/-! ## Changes that cannot be seen -/

theorem Similar.trans {m₁ m₂ m₃} (h : Similar m₁ m₂) (h' : Similar m₂ m₃) : Similar m₁ m₃ where
  enabled p := (h.enabled p).trans (h'.enabled p)
  fields p hen := by
    obtain ⟨f1, f2, f3, f4, f5, f6, f7⟩ := h.fields p hen
    obtain ⟨g1, g2, g3, g4, g5, g6, g7⟩ := h'.fields p (h.enabled p ▸ hen)
    exact ⟨f1.trans g1, f2.trans g2, f3.trans g3, f4.trans g4, f5.trans g5, f6.trans g6,
      f7.trans g7⟩
  subregions p hen := (h.subregions p hen).trans (h'.subregions p (h.enabled p ▸ hen))
  addr p hen q hq hqen := by
    refine (h.addr p hen q hq hqen).trans (h'.addr p (h.enabled p ▸ hen) q ?_ (h.enabled q ▸ hqen))
    have hmem : q ∈ (m₁ p).subregions.filter (fun q => (m₁ q).enabled) :=
      mem_filter.2 ⟨hq, hqen⟩
    rw [h.subregions p hen] at hmem
    exact mem_of_mem_filter hmem

/-- A change of one region that rendering cannot see. -/
structure Unseen (mem : Memory) (p : MrPtr) (mr : MemoryRegion) : Prop where
  enabled : mr.enabled = (mem p).enabled
  fields : (mem p).enabled → mr.size = (mem p).size ∧ mr.terminates = (mem p).terminates ∧
    mr.romdMode = (mem p).romdMode ∧ mr.readonly = (mem p).readonly ∧
    mr.aliasMr = (mem p).aliasMr ∧ mr.aliasOffset = (mem p).aliasOffset ∧
    mr.dirtyLogMask = (mem p).dirtyLogMask
  subregions : (mem p).enabled → mr.subregions.filter (fun q => (mem q).enabled) =
    (mem p).subregions.filter (fun q => (mem q).enabled)
  addr : (mem p).enabled → mr.addr = (mem p).addr ∨ ∀ m, (mem m).enabled → p ∉ (mem m).subregions

theorem Unseen.similar {mr} (h : Unseen mem p mr) : Similar mem (update mem p mr) := by
  have hen : ∀ q, (update mem p mr q).enabled = (mem q).enabled := by
    intro q
    by_cases hq : q = p
    · rw [hq, update_self, h.enabled]
    · rw [update_of_ne hq]
  refine ⟨fun q => (hen q).symm, fun q hq => ?_, fun q hq => ?_, fun m hm q hq hqen => ?_⟩
  · by_cases hqp : q = p
    · subst hqp
      obtain ⟨f1, f2, f3, f4, f5, f6, f7⟩ := h.fields hq
      constructor <;> rw [update_self] <;> symm <;> assumption
    · constructor <;> rw [update_of_ne hqp]
  · simp only [hen]
    by_cases hqp : q = p
    · subst hqp
      rw [update_self, h.subregions hq]
    · rw [update_of_ne hqp]
  · by_cases hqp : q = p
    · subst hqp
      rw [update_self]
      exact ((h.addr hqen).resolve_right fun hno => hno m hm hq).symm
    · rw [update_of_ne hqp]

variable {subregion : MrPtr}

/-- Taking a disabled region out of a list, or putting one in, is not seen. -/
theorem filter_insertSubregion {keep} (h : keep subregion = false) (priority : ℤ)
    (l : List MrPtr) : (insertSubregion mem priority subregion l).filter keep = l.filter keep := by
  induction l with
  | nil => simp [insertSubregion, h]
  | cons other rest ih =>
    rw [insertSubregion]
    split
    · rw [filter_cons_of_neg (by simp [h])]
    · rw [filter_cons, filter_cons, ih]

theorem filter_erase_of_neg {l : List MrPtr} {keep : MrPtr → Bool} (h : keep subregion = false) :
    (l.erase subregion).filter keep = l.filter keep := by
  induction l with
  | nil => rfl
  | cons other rest ih =>
    rw [erase_cons]
    split
    · rename_i heq
      rw [eq_of_beq heq, filter_cons_of_neg (by simp [h])]
    · rw [filter_cons, filter_cons, ih]

variable {mr : MrPtr} {offset : Hwaddr}

theorem similar_linkMem {r : Regions} (hp : (r.mem subregion).parent = none)
    (hdis : (r.mem mr).enabled = false ∨ (r.mem subregion).enabled = false) :
    Similar r.mem (linkMem r.mem mr offset subregion) := by
  have h1 : Unseen r.mem subregion { r.mem subregion with parent := some mr, addr := offset } := by
    exact ⟨rfl, fun _ => ⟨rfl, rfl, rfl, rfl, rfl, rfl, rfl⟩, fun _ => rfl,
      fun _ => .inr fun m _ => r.notMem_of_orphan hp m⟩
  have hs := h1.similar
  refine hs.trans (Unseen.similar ⟨rfl, fun _ => ⟨rfl, rfl, rfl, rfl, rfl, rfl, rfl⟩, fun hen => ?_,
    fun _ => .inl rfl⟩)
  refine filter_insertSubregion ?_ _ _
  rw [← hs.enabled] at hen ⊢
  exact hdis.resolve_left (by simp [hen])

theorem similar_unlinkMem {r : Regions}
    (hdis : (r.mem mr).enabled = false ∨ (r.mem subregion).enabled = false) :
    Similar r.mem (unlinkMem r.mem mr subregion) := by
  have h1 : Unseen r.mem subregion { r.mem subregion with parent := none } :=
    ⟨rfl, fun _ => ⟨rfl, rfl, rfl, rfl, rfl, rfl, rfl⟩, fun _ => rfl, fun _ => .inl rfl⟩
  have hs := h1.similar
  refine hs.trans (Unseen.similar ⟨rfl, fun _ => ⟨rfl, rfl, rfl, rfl, rfl, rfl, rfl⟩, fun hen => ?_,
    fun _ => .inl rfl⟩)
  refine filter_erase_of_neg ?_
  rw [← hs.enabled] at hen ⊢
  exact hdis.resolve_left (by simp [hen])

/-! ## Transactions -/

/-- Unless an update is pending, the address spaces of `P` have the flat views of their
roots. -/
def Tracked (stack : ℕ) (P : AsPtr → Prop) (st : MemoryState) : Prop :=
  st.pending = false → ∀ as ∈ st.spaces, P as.ptr →
    generateMemoryTopology st.mem stack as.root = .ok as.currentMap

/-- A call leaves the transactions as they were, and no update pending outside of them. -/
abbrev CallDone (stack : ℕ) (P : AsPtr → Prop) (st st' : MemoryState) : Prop :=
  st'.depth = st.depth ∧ Tracked stack P st' ∧ (st'.depth = 0 → st'.pending = false)

section Tracked

variable {stack : ℕ} {P : AsPtr → Prop} {st st' : MemoryState}

theorem tracked_of_pending (h : st.pending = true) : Tracked stack P st := fun h' => by
  rw [h] at h'
  cases h'

theorem tracked_setPending {b} (h : b = false → Tracked stack P st) :
    Tracked stack P (st.setPending b) := by
  intro hp
  obtain ⟨hp, hb⟩ := Bool.or_eq_false_iff.1 hp
  exact h hb hp

/-- A step of the heap that rendering cannot see. -/
theorem Tracked.of_similar (h : Tracked stack P st) (hspaces : st'.spaces = st.spaces)
    (hpend : st'.pending = false → st.pending = false ∧ Similar st.mem st'.mem ∧
      ∀ as ∈ st.spaces, ∀ p, as.root = some p → (st.mem p).enabled →
        (st.mem p).addr = (st'.mem p).addr) : Tracked stack P st' := by
  intro hp as has hP
  obtain ⟨hp', hs, haddr⟩ := hpend hp
  rw [hspaces] at has
  rw [← generateMemoryTopology_congr hs stack (haddr as has)]
  exact h hp' as has hP

theorem addressSpaceUpdateIoeventfds_map {as as' ls ls'}
    (h : addressSpaceUpdateIoeventfds mem as ls = some (as', ls')) :
    as'.root = as.root ∧ as'.currentMap = as.currentMap ∧ as'.ptr = as.ptr := by
  simp only [addressSpaceUpdateIoeventfds, bind_eq_bind, bind_eq_some_iff,
    some.injEq, Prod.mk.injEq] at h
  obtain ⟨ls₁, -, rfl, -⟩ := h
  exact ⟨rfl, rfl, rfl⟩

theorem addressSpaceUpdateTopology_map {as as' ls ls'}
    (h : addressSpaceUpdateTopology stack mem as ls = some (as', ls')) :
    generateMemoryTopology mem stack as'.root = .ok as'.currentMap := by
  simp only [addressSpaceUpdateTopology, bind_eq_bind, bind_eq_some_iff] at h
  obtain ⟨new, hnew, ls₁, -, ls₂, -, hfds⟩ := h
  obtain ⟨h1, h2, -⟩ := addressSpaceUpdateIoeventfds_map hfds
  rw [h1, h2]
  cases hgen :
    (generateMemoryTopology mem stack as.root : Except RenderError (FlatView Int128)) with
  | error e =>
    rw [hgen] at hnew
    cases hnew
  | ok view =>
    rw [hgen] at hnew
    cases hnew
    rfl

theorem addressSpacesUpdate_map : ∀ spaces spaces'
    ls ls', addressSpacesUpdate stack mem spaces ls = some (spaces', ls') →
    ∀ as ∈ spaces', generateMemoryTopology mem stack as.root = .ok as.currentMap
  | [], spaces', ls, ls', h => by
    cases h
    simp
  | as :: spaces, spaces', ls, ls', h => by
    simp only [addressSpacesUpdate, bind_eq_bind, bind_eq_some_iff, Prod.exists,
      some.injEq, Prod.mk.injEq] at h
    obtain ⟨as₁, ls₁, has, spaces₁, ls₂, hrest, rfl, -⟩ := h
    intro s hs
    rcases mem_cons.1 hs with rfl | hs
    · exact addressSpaceUpdateTopology_map has
    · exact addressSpacesUpdate_map spaces spaces₁ ls₁ ls₂ hrest s hs

theorem memoryRegionTransactionCommit_tracked (ht : Tracked stack P st)
    (h : memoryRegionTransactionCommit stack st = some st') :
    st.depth = st'.depth + 1 ∧ Tracked stack P st' ∧ (st'.depth = 0 → st'.pending = false) := by
  unfold memoryRegionTransactionCommit at h
  split at h
  · cases h
  rename_i depth hdepth
  split at h
  · rename_i hupd
    simp only [bind_eq_bind, bind_eq_some_iff, Prod.exists, some.injEq] at h
    obtain ⟨spaces, ls, hrun, rfl⟩ := h
    exact ⟨by rw [hdepth, hupd.1], fun _ as has _ => addressSpacesUpdate_map _ _ _ _ hrun as has,
      fun _ => rfl⟩
  · rename_i hupd
    cases h
    exact ⟨hdepth, ht, fun h0 => by simpa [show depth = 0 from h0] using hupd⟩

/-- A call in its own transaction. -/
theorem inTransaction_tracked {body}
    (hbody : ∀ st₁, body (memoryRegionTransactionBegin st) = some st₁ →
      st₁.depth = st.depth + 1 ∧ Tracked stack P st₁)
    (h : inTransaction stack body st = some st') : CallDone stack P st st' := by
  simp only [inTransaction, bind_eq_bind, bind_eq_some_iff] at h
  obtain ⟨st₁, hst₁, hcommit⟩ := h
  obtain ⟨hd, ht⟩ := hbody st₁ hst₁
  obtain ⟨hd', ht', hp⟩ := memoryRegionTransactionCommit_tracked ht hcommit
  exact ⟨by omega, ht', hp⟩

/-- Inside another transaction, the commit of a call only closes its own. -/
theorem inTransaction_nested {body} (hd : 0 < st.depth)
    (h : inTransaction stack body st = some st') :
    ∃ st₁, body (memoryRegionTransactionBegin st) = some st₁ ∧
      (st₁.depth = st.depth + 1 → st' = { st₁ with depth := st.depth }) := by
  simp only [inTransaction, bind_eq_bind, bind_eq_some_iff] at h
  obtain ⟨st₁, hst₁, hcommit⟩ := h
  refine ⟨st₁, hst₁, fun hdepth => ?_⟩
  unfold memoryRegionTransactionCommit at hcommit
  rw [hdepth] at hcommit
  dsimp only at hcommit
  rw [if_neg (fun h => by omega)] at hcommit
  exact (some.inj hcommit).symm

end Tracked

/-! ## The calls -/

/-- What every state of a run keeps. -/
structure UpToDate (stack : ℕ) (st : MemoryState) : Prop where
  tracked : Tracked stack (fun _ => True) st
  closed : st.depth = 0 → st.pending = false

theorem CallDone.upToDate {stack st st'}
    (h : CallDone stack (fun _ => True) st st') : UpToDate stack st' := ⟨h.2.1, h.2.2⟩

/-- The region is the root of an address space. -/
def IsRoot (st : MemoryState) (p : MrPtr) : Prop := ∃ as ∈ st.spaces, as.root = some p

/-- An enabled root of an address space that is moved has an enabled parent, or an update is
pending already. -/
def Announced (st : MemoryState) : MemoryOp → Prop
  | .setAddress p addr => addr ≠ (st.mem p).addr → (st.mem p).enabled → IsRoot st p →
      st.pending = true ∨ ∃ parent, (st.mem p).parent = some parent ∧ (st.mem parent).enabled
  | .addSubregion mr offset subregion | .addSubregionOverlap mr offset subregion _ =>
    offset ≠ (st.mem subregion).addr → (st.mem subregion).enabled → IsRoot st subregion →
      st.pending = true ∨ (st.mem mr).enabled
  | _ => True

section Calls

variable {stack : ℕ} {P : AsPtr → Prop} {st st' : MemoryState}

theorem modify_mem (st : MemoryState) (p : MrPtr) (f : MemoryRegion → MemoryRegion)
    (hf : ∀ mr, (f mr).parent = mr.parent ∧ (f mr).subregions = mr.subregions) :
    (st.modify p f hf).mem = update st.mem p (f (st.mem p)) := rfl

variable {f : MemoryRegion → MemoryRegion}

theorem Tracked.modify_unseen {hf} (ht : Tracked stack P st) (hu : Unseen st.mem p (f (st.mem p)))
    (haddr : IsRoot st p → (st.mem p).enabled → (st.mem p).addr = (f (st.mem p)).addr) :
    Tracked stack P (st.modify p f hf) := by
  refine ht.of_similar rfl fun hp => ⟨hp, hu.similar, fun as has q hq hen => ?_⟩
  rw [modify_mem]
  by_cases hqp : q = p
  · subst hqp
    rw [update_self]
    exact haddr ⟨as, has, hq⟩ hen
  · rw [update_of_ne hqp]

/-- Calls that change one region in place. -/
theorem updateRegion_tracked {hf}
    (hen : ∀ mr, (f mr).enabled = mr.enabled) (ht : Tracked stack P st)
    (h : updateRegion stack p f hf st = some st') : CallDone stack P st st' := by
  refine inTransaction_tracked (fun st₁ hst₁ => ?_) h
  cases hst₁
  refine ⟨rfl, tracked_setPending fun hdis => ?_⟩
  have hdis : ¬(st.mem p).enabled := Bool.eq_false_iff.1 hdis
  have ht' : Tracked stack P (memoryRegionTransactionBegin st) := ht
  refine ht'.modify_unseen ?_ fun _ h => absurd h hdis
  exact ⟨hen _, fun h => absurd h hdis, fun h => absurd h hdis, fun h => absurd h hdis⟩

theorem memoryRegionAddSubregionCommon_tracked
    (hok : offset ≠ (st.mem subregion).addr → (st.mem subregion).enabled → IsRoot st subregion →
      st.pending = true ∨ (st.mem mr).enabled) (ht : Tracked stack P st)
    (h : memoryRegionAddSubregionCommon stack mr offset subregion st = some st') :
    CallDone stack P st st' := by
  refine inTransaction_tracked (fun st₁ hst₁ => ?_) h
  split at hst₁
  swap
  · cases hst₁
  rename_i hpar
  cases hst₁
  refine ⟨rfl, tracked_setPending fun hdis => ?_⟩
  have hdis' : (st.mem mr).enabled = false ∨ (st.mem subregion).enabled = false := by
    rw [← linkMem_enabled st.mem mr offset subregion mr,
      ← linkMem_enabled st.mem mr offset subregion subregion]
    exact Bool.and_eq_false_iff.1 hdis
  have ht' : Tracked stack P (memoryRegionTransactionBegin st) := ht
  refine ht'.of_similar rfl fun hp => ⟨hp, similar_linkMem hpar hdis', fun as has p hroot hen => ?_⟩
  refine Eq.trans ?_ (linkMem_addr st.mem mr offset subregion p).symm
  split
  · rename_i hps
    subst hps
    by_contra hne
    rcases hok (fun h => hne h.symm) hen ⟨as, has, hroot⟩ with hpend | hmr
    · exact Bool.false_ne_true (hp.symm.trans hpend)
    · rcases hdis' with hd | hd
      · exact Bool.false_ne_true (hd.symm.trans hmr)
      · exact Bool.false_ne_true (hd.symm.trans hen)
  · rfl

/-- The priority and the overlap flag are not read by rendering. -/
theorem Tracked.modify_placement {hf} (ht : Tracked stack P st) (mayOverlap : Bool) (priority : ℤ)
    (h : f (st.mem p) = { st.mem p with mayOverlap, priority }) :
    Tracked stack P (st.modify p f hf) := by
  refine ht.modify_unseen ?_ fun _ _ => by rw [h]
  rw [h]
  exact ⟨rfl, fun _ => ⟨rfl, rfl, rfl, rfl, rfl, rfl, rfl⟩, fun _ => rfl, fun _ => .inl rfl⟩

theorem memoryRegionDelSubregion_tracked (ht : Tracked stack P st)
    (h : memoryRegionDelSubregion stack mr subregion st = some st') : CallDone stack P st st' := by
  refine inTransaction_tracked (fun st₁ hst₁ => ?_) h
  split at hst₁
  swap
  · cases hst₁
  cases hst₁
  refine ⟨rfl, tracked_setPending fun hdis => ?_⟩
  have hdis' : (st.mem mr).enabled = false ∨ (st.mem subregion).enabled = false := by
    rw [← unlinkMem_enabled st.mem mr subregion mr,
      ← unlinkMem_enabled st.mem mr subregion subregion]
    exact Bool.and_eq_false_iff.1 hdis
  have ht' : Tracked stack P (memoryRegionTransactionBegin st) := ht
  refine ht'.of_similar rfl fun hp => ⟨hp, similar_unlinkMem hdis', fun as has p hroot hen => ?_⟩
  exact (unlinkMem_addr st.mem mr subregion p).symm

theorem memoryRegionAddSubregion_tracked
    (hok : offset ≠ (st.mem subregion).addr → (st.mem subregion).enabled → IsRoot st subregion →
      st.pending = true ∨ (st.mem mr).enabled) (ht : Tracked stack P st) (mayOverlap : Bool)
    (priority : ℤ) (h : memoryRegionAddSubregionCommon stack mr offset subregion
      (st.modify subregion (fun mr => { mr with mayOverlap, priority }) fun _ => ⟨rfl, rfl⟩) =
        some st') : CallDone stack P st st' := by
  obtain ⟨st₁, hst₁⟩ : ∃ st₁, st₁ = st.modify subregion (fun mr => { mr with mayOverlap, priority })
    fun _ => ⟨rfl, rfl⟩ := ⟨_, rfl⟩
  have hsame : ∀ q, (st₁.mem q).enabled = (st.mem q).enabled ∧
      (st₁.mem q).addr = (st.mem q).addr := by
    intro q
    rw [hst₁, modify_mem]
    by_cases hq : q = subregion
    · rw [hq, update_self]
      exact ⟨rfl, rfl⟩
    · rw [update_of_ne hq]
      exact ⟨rfl, rfl⟩
  have ht₁ : Tracked stack P st₁ := by
    rw [hst₁]
    exact ht.modify_placement mayOverlap priority rfl
  have hdepth : st₁.depth = st.depth := by rw [hst₁]; rfl
  rw [← hst₁] at h
  rw [CallDone, ← hdepth]
  refine memoryRegionAddSubregionCommon_tracked (fun hne hen hroot => ?_) ht₁ h
  rw [(hsame mr).1, show st₁.pending = st.pending by rw [hst₁]; rfl]
  refine hok ?_ ((hsame subregion).1 ▸ hen) (by rw [hst₁] at hroot; exact hroot)
  rw [← (hsame subregion).2]
  exact hne

theorem memoryRegionDelSubregion_nested (hd : 0 < st.depth)
    (h : memoryRegionDelSubregion stack mr subregion st = some st') :
    st'.spaces = st.spaces ∧ (∀ q, (st'.mem q).enabled = (st.mem q).enabled) ∧
      (∀ q, (st'.mem q).addr = (st.mem q).addr) ∧
      st'.pending = (st.pending || ((st.mem mr).enabled && (st.mem subregion).enabled)) := by
  obtain ⟨st₁, hst₁, hst'⟩ := inTransaction_nested hd h
  split at hst₁
  swap
  · cases hst₁
  cases hst₁
  rw [hst' rfl]
  have hen := unlinkMem_enabled st.mem mr subregion
  refine ⟨rfl, hen, unlinkMem_addr st.mem mr subregion, ?_⟩
  rw [← hen mr, ← hen subregion]
  rfl

theorem memoryRegionSetAddress_upToDate {addr} (hok : Announced st (.setAddress p addr))
    (hu : UpToDate stack st) (h : memoryRegionSetAddress stack p addr st = some st') :
    UpToDate stack st' := by
  obtain ⟨ht, hclosed⟩ := hu
  unfold memoryRegionSetAddress at h
  split at h
  · rename_i haddr
    cases h
    refine ⟨ht.modify_unseen ?_ fun _ _ => haddr.symm, hclosed⟩
    exact ⟨rfl, fun _ => ⟨rfl, rfl, rfl, rfl, rfl, rfl, rfl⟩, fun _ => rfl, fun _ => .inl haddr⟩
  rename_i haddr
  split at h
  · rename_i hpar
    cases h
    refine ⟨?_, hclosed⟩
    cases hpend : st.pending with
    | true => exact tracked_of_pending hpend
    | false =>
      refine ht.modify_unseen ?_ fun hroot hen => ?_
      · exact ⟨rfl, fun _ => ⟨rfl, rfl, rfl, rfl, rfl, rfl, rfl⟩, fun _ => rfl,
          fun _ => .inr fun m _ => st.regions.notMem_of_orphan hpar m⟩
      · rcases hok haddr hen hroot with hp | ⟨parent, hp, -⟩
        · rw [hpend] at hp
          cases hp
        · rw [hpar] at hp
          cases hp
  · rename_i parent hpar
    refine (inTransaction_tracked (fun st₂ hst₂ => ?_) h).upToDate
    simp only [bind_eq_bind, bind_eq_some_iff] at hst₂
    obtain ⟨st₁, hdel, hadd⟩ := hst₂
    have ht₀ : Tracked stack (fun _ => True) (memoryRegionTransactionBegin st) := ht
    obtain ⟨hd₁, ht₁, -⟩ := memoryRegionDelSubregion_tracked ht₀ hdel
    obtain ⟨hsp, hen, hadr, hpend⟩ :=
      memoryRegionDelSubregion_nested (Nat.succ_pos st.depth) hdel
    have hok₁ : addr ≠ (st₁.mem p).addr → (st₁.mem p).enabled → IsRoot st₁ p →
        st₁.pending = true ∨ (st₁.mem parent).enabled := by
      rw [hadr, hen, hen, IsRoot, hsp, hpend]
      intro hne hpen hroot
      rcases hok hne hpen hroot with hp | ⟨m, hm, hmen⟩
      · exact .inl (Bool.or_eq_true_iff.2 (.inl hp))
      · rw [hpar] at hm
        cases hm
        exact .inr hmen
    have hres : CallDone stack (fun _ => True) st₁ st₂ := by
      split at hadd
      · exact memoryRegionAddSubregion_tracked hok₁ ht₁ true _ hadd
      · exact memoryRegionAddSubregion_tracked hok₁ ht₁ false 0 hadd
    exact ⟨hres.1.trans hd₁, hres.2.1⟩

theorem memoryListenerRegister_eq {ptr priority} {filter
    has} (h : memoryListenerRegister ptr priority filter has st = some st') :
    ∃ listeners, st' = { st with listeners } := by
  unfold memoryListenerRegister at h
  split at h
  · cases h
  simp only [bind_eq_bind, bind_eq_some_iff, some.injEq] at h
  obtain ⟨l, -, rfl⟩ := h
  exact ⟨_, rfl⟩

theorem memoryListenerUnregister_eq {ptr} (h : memoryListenerUnregister ptr st = some st') :
    ∃ listeners, st' = { st with listeners } := by
  unfold memoryListenerUnregister at h
  split at h
  · cases h
    exact ⟨_, rfl⟩
  · cases h

section

variable (hu : UpToDate stack st)
include hu

/-- Listeners do not matter. -/
theorem UpToDate.of_listeners (globalDirtyLog : Bool) (listeners : List MemoryListener) :
    UpToDate stack { st with globalDirtyLog, listeners } :=
  ⟨hu.tracked, hu.closed⟩

theorem addressSpaceInit_upToDate {as root}
    (h : addressSpaceInit stack as root st = some st') : UpToDate stack st' := by
  unfold addressSpaceInit at h
  split at h
  · cases h
  refine (inTransaction_tracked (fun st₁ hst₁ => ?_) h).upToDate
  simp only [bind_eq_bind, bind_eq_some_iff, some.injEq] at hst₁
  obtain ⟨st₂, hreg, rfl⟩ := hst₁
  obtain ⟨listeners, rfl⟩ := memoryListenerRegister_eq hreg
  refine ⟨rfl, tracked_setPending fun hdis hp s hs _ => ?_⟩
  rcases mem_append.1 hs with hs | hs
  · exact hu.tracked hp s hs trivial
  · rw [mem_singleton.1 hs]
    simp only [generateMemoryTopology]
    rw [renderMemoryRegion_disabled hdis]
    rfl

theorem addressSpaceDestroy_upToDate {as} (h : addressSpaceDestroy stack as st = some st') :
    UpToDate stack st' := by
  unfold addressSpaceDestroy at h
  split at h
  swap
  · cases h
  simp only [bind_eq_bind, bind_eq_some_iff] at h
  obtain ⟨st₁, hclear, hunreg⟩ := h
  obtain ⟨listeners, rfl⟩ := memoryListenerUnregister_eq hunreg
  have hrest : CallDone stack (· ≠ as) st st₁ := by
    refine inTransaction_tracked (fun st₂ hst₂ => ?_) hclear
    cases hst₂
    refine ⟨rfl, fun hp s hs hne => ?_⟩
    obtain ⟨s', hs', rfl⟩ := mem_map.1 hs
    unfold AddressSpace.clearRoot at hne ⊢
    split at hne
    · rename_i heq
      exact absurd heq hne
    · rename_i heq
      rw [if_neg heq]
      exact hu.tracked hp s' hs' trivial
  refine ⟨fun hp s hs _ => ?_, hrest.2.2⟩
  obtain ⟨hs, hne⟩ := mem_filter.1 hs
  exact hrest.2.1 hp s hs (by simpa using hne)

theorem memoryRegionSetEnabled_upToDate {enabled}
    (h : memoryRegionSetEnabled stack p enabled st = some st') : UpToDate stack st' := by
  unfold memoryRegionSetEnabled at h
  split at h
  · cases h
    exact hu
  refine (inTransaction_tracked (fun st₁ hst₁ => ?_) h).upToDate
  cases hst₁
  exact ⟨rfl, tracked_of_pending (Bool.or_true _)⟩

/-- Calls that do nothing, or change one region in place. -/
theorem updateRegion_upToDate {hf}
    (h : updateRegion stack p f hf st = some st') (hen : ∀ mr, (f mr).enabled = mr.enabled) :
    UpToDate stack st' := by
  exact (updateRegion_tracked hen hu.tracked h).upToDate

/-- One call keeps every flat view up to date. -/
theorem memoryStep_upToDate {op} (hok : Announced st op)
    (h : memoryStep stack op st = some st') : UpToDate stack st' := by
  cases op with
  | transactionBegin =>
    cases h
    exact ⟨hu.tracked, nofun⟩
  | transactionCommit =>
    obtain ⟨-, ht, hclosed⟩ := memoryRegionTransactionCommit_tracked hu.tracked h
    exact ⟨ht, hclosed⟩
  | setLog | setReadonly | romDeviceSetRomd | setAliasOffset | addEventfd | delEventfd =>
    rcases memoryStep_inPlace h trivial with rfl | ⟨p, f, hf, h, hen⟩
    · exact hu
    · exact updateRegion_upToDate hu h hen
  | addSubregion mr offset subregion =>
    exact (memoryRegionAddSubregion_tracked hok hu.tracked false 0 h).upToDate
  | addSubregionOverlap mr offset subregion priority =>
    exact (memoryRegionAddSubregion_tracked hok hu.tracked true priority h).upToDate
  | delSubregion mr subregion =>
    exact (memoryRegionDelSubregion_tracked hu.tracked h).upToDate
  | setEnabled p enabled => exact memoryRegionSetEnabled_upToDate hu h
  | setAddress p addr => exact memoryRegionSetAddress_upToDate hok hu h
  | listenerRegister n priority filter has =>
    obtain ⟨listeners, rfl⟩ := memoryListenerRegister_eq h
    exact hu.of_listeners _ _
  | listenerUnregister n =>
    obtain ⟨listeners, rfl⟩ := memoryListenerUnregister_eq h
    exact hu.of_listeners _ _
  | globalDirtyLogStart | globalDirtyLogStop =>
    cases h
    exact hu.of_listeners _ _
  | addressSpaceInit as root => exact addressSpaceInit_upToDate hu h
  | addressSpaceDestroy as => exact addressSpaceDestroy_upToDate hu h

end

end Calls

/-- Flat views are not stale outside transactions, in a run that announces every move of a
root. -/
theorem flatViews_current {stack : ℕ}
    (hmem : ∀ p, (mem p).parent = none ∧ (mem p).subregions = []) {st : MemoryState}
    (hrun : Reach (memoryStep stack) Announced (MemoryState.init mem hmem) st)
    (hdepth : st.depth = 0) :
    ∀ as ∈ st.spaces, generateMemoryTopology st.mem stack as.root = .ok as.currentMap := by
  have hinit : UpToDate stack (init mem hmem) :=
    ⟨fun _ as has => absurd has List.not_mem_nil, fun _ => rfl⟩
  have hu := hrun.invariant hinit fun s i s' hs hok hstep => memoryStep_upToDate hs hok hstep
  exact fun as has => hu.tracked (hu.closed hdepth) as has trivial

/-- A device is put on the bus, the bus becomes an address space and the device read-only. -/
def deviceOps : List MemoryOp :=
  [.addSubregion 0 0x1000 1, .addressSpaceInit 0 0, .setReadonly 1 true]

/-- After these calls the flat view is that of the memory. -/
theorem flatViews_current_deviceOps : ∃ st,
    deviceOps.foldlM (fun st op => memoryStep 3 op st)
      (MemoryState.init deviceMemory deviceMemory_unlinked) = some st ∧ st.depth = 0 ∧
    ∀ as ∈ st.spaces, generateMemoryTopology st.mem 3 as.root = .ok as.currentMap := by
  have hsome : (deviceOps.foldlM (fun st op => memoryStep 3 op st)
      (init deviceMemory deviceMemory_unlinked)).any (fun st => st.depth == 0) = true := by
    decide +kernel
  obtain ⟨hget, hdepth⟩ := (any_eq_true_iff_get _ _).1 hsome
  refine ⟨_, (some_get hget).symm, eq_of_beq hdepth, ?_⟩
  have hrun := (some_get hget).symm
  conv at hrun => lhs; rw [deviceOps, List.foldlM_cons]
  obtain ⟨st₁, hfirst, hrest⟩ := bind_eq_some_iff.1 hrun
  have hreach : Reach (memoryStep 3) Announced (init deviceMemory deviceMemory_unlinked) st₁ :=
    .tail .refl (fun _ _ ⟨_, has, _⟩ => absurd has List.not_mem_nil) hfirst
  refine flatViews_current deviceMemory_unlinked (hreach.foldlM _ (fun op hop st => ?_) hrest)
    (eq_of_beq hdepth)
  simp only [List.mem_cons, List.not_mem_nil, or_false] at hop
  rcases hop with rfl | rfl <;> exact trivial

/-- The root of an address space is moved, and its flat view is not. -/
theorem flatViews_stale_setAddress : ∃ st,
    [MemoryOp.addressSpaceInit 0 1, .setAddress 1 0x2000].foldlM (fun st op => memoryStep 3 op st)
      (MemoryState.init deviceMemory deviceMemory_unlinked) = some st ∧ st.depth = 0 ∧
    ∃ as ∈ st.spaces, generateMemoryTopology st.mem 3 as.root ≠ .ok as.currentMap := by
  have hsome : ([MemoryOp.addressSpaceInit 0 1, .setAddress 1 0x2000].foldlM
      (fun st op => memoryStep 3 op st) (init deviceMemory deviceMemory_unlinked)).any
      (fun st => st.depth == 0 && st.spaces.any fun as =>
        decide (generateMemoryTopology st.mem 3 as.root ≠ .ok as.currentMap)) = true := by
    decide +kernel
  obtain ⟨hget, hst⟩ := (any_eq_true_iff_get _ _).1 hsome
  simp only [Bool.and_eq_true, beq_iff_eq, List.any_eq_true, decide_eq_true_eq] at hst
  exact ⟨_, (some_get hget).symm, hst⟩

end QemuArm
