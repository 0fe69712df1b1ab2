import QemuArm.VmState

/-!
# Round trips of device state

`vmstate_roundTrip_iff` : for a well formed description, the load of what was saved returns, reads
exactly that and restores all saved bytes, for it and for each struct and subsection in it with
the bytes that follow there, exactly if the bytes that follow never look like a subsection.
`vmstate_roundTrip_fail` has a struct before a buffer, whose contents decide whether the load
works.
-/

namespace QemuArm

open List Function Nat

/-! ## Well formed descriptions -/

/-- The integer fields of an object that have been read, with their sizes. -/
abbrev Known := List (ℕ × ℕ)

def VmCount.Ready (known : Known) : VmCount → Prop
  | one => True
  | array _ => True
  | varrayInt32 o => (o, 4) ∈ known
  | varrayUint32 o => (o, 4) ∈ known
  | varrayUint16 o => (o, 2) ∈ known
  | varrayUint8 o => (o, 1) ∈ known

def VmLeaf.Ready (known : Known) : VmLeaf → Prop
  | int _ => True
  | buffer _ => True
  | vbuffer o _ => (o, 4) ∈ known

/-- What a field adds. -/
def leafKnown (f : VmField) (info : VmLeaf) : Known :=
  match f.count, info with
  | .one, .int size => [(f.offset, size)]
  | _, _ => []

def VmFields.known : VmFields → Known
  | nil => []
  | leaf f info rest => leafKnown f info ++ rest.known
  | struct _ _ rest => rest.known

def VmSubs.names : VmSubs → List (List (BitVec 8))
  | nil => []
  | cons _ vmsd rest => vmsd.name :: rest.names

mutual

/-- Names are C strings that fit their length byte, and the description can be loaded at its
own version. -/
def Vmsd.WellFormed (known : Known) : Vmsd → Prop
  | .mk name versionId minimumVersionId minimumVersionIdOld fields subs =>
    name.length < 256 ∧ 0 ∉ name ∧ minimumVersionId ≤ versionId ∧
    minimumVersionIdOld ≤ versionId ∧ fields.WellFormed versionId known ∧
    subs.WellFormed name (fields.known ++ known)

/-- The counts and sizes of fields come before them. -/
def VmFields.WellFormed (versionId : ℕ) (known : Known) : VmFields → Prop
  | .nil => True
  | .leaf f info rest =>
    f.versionId ≤ versionId ∧ f.count.Ready known ∧ info.Ready known ∧
    rest.WellFormed versionId (leafKnown f info ++ known)
  | .struct f vmsd rest =>
    f.versionId ≤ versionId ∧ f.count.Ready known ∧ vmsd.WellFormed [] ∧
    rest.WellFormed versionId known

/-- Subsections are named after the section, differently, and their versions fit the
`uint8_t` they are read into. -/
def VmSubs.WellFormed (name : List (BitVec 8)) (known : Known) : VmSubs → Prop
  | .nil => True
  | .cons _ vmsd rest =>
    (∃ suffix, vmsd.name = name ++ 47 :: suffix) ∧ vmsd.versionId < 256 ∧
    vmsd.name ∉ rest.names ∧ vmsd.WellFormed known ∧ rest.WellFormed name known

end

/-! ## What is saved and what follows -/

section Everywhere

variable (m : VmMem)

mutual

/-- Byte `i` of the place `q` is saved. -/
def Saved : Vmsd → VmPlace → VmPlace → ℕ → Prop
  | .mk _ _ _ _ fields subs, p, q, i => SavedFields fields p q i ∨ SavedSubs subs p q i

def SavedFields : VmFields → VmPlace → VmPlace → ℕ → Prop
  | .nil, _, _, _ => False
  | .leaf f info rest, p, q, i =>
    (∃ j < f.count.elems p m, q = p ++ [(f.offset, j)] ∧ i < info.size p m) ∨ SavedFields rest p q i
  | .struct f vmsd rest, p, q, i =>
    (∃ j < f.count.elems p m, Saved vmsd (p ++ [(f.offset, j)]) q i) ∨ SavedFields rest p q i

def SavedSubs : VmSubs → VmPlace → VmPlace → ℕ → Prop
  | .nil, _, _, _ => False
  | .cons needed vmsd rest, p, q, i =>
    needed m p = true ∧ Saved vmsd p q i ∨ SavedSubs rest p q i

end

/-- The bytes of the elements of an array of structs from `i` on. -/
def saveElems (vmsd : Vmsd) (p : VmPlace) (offset i k : ℕ) : List (BitVec 8) :=
  (List.range' i k).flatMap fun j => saveState m vmsd (p ++ [(offset, j)])

variable (Q : Known → Vmsd → VmPlace → List (BitVec 8) → Prop)

mutual

/-- `Q` holds for the description, and for all structs and saved subsections in it, with the
bytes that follow each. -/
def Everywhere (known : Known) : Vmsd → VmPlace → List (BitVec 8) → Prop
  | .mk name versionId minimum old fields subs, p, rest =>
    Q known (.mk name versionId minimum old fields subs) p rest ∧
    EverywhereFields fields p (saveSubs m subs p ++ rest) ∧
    EverywhereSubs (fields.known ++ known) subs p rest

def EverywhereFields : VmFields → VmPlace → List (BitVec 8) → Prop
  | .nil, _, _ => True
  | .leaf _ _ fields, p, rest => EverywhereFields fields p rest
  | .struct f vmsd fields, p, rest =>
    (∀ i k, i + 1 + k = f.count.elems p m →
      Everywhere [] vmsd (p ++ [(f.offset, i)])
        (saveElems m vmsd p f.offset (i + 1) k ++ (saveFields m fields p ++ rest))) ∧
    EverywhereFields fields p rest

def EverywhereSubs (known : Known) : VmSubs → VmPlace → List (BitVec 8) → Prop
  | .nil, _, _ => True
  | .cons needed vmsd subs, p, rest =>
    (needed m p = true → Everywhere known vmsd p (saveSubs m subs p ++ rest)) ∧
    EverywhereSubs known subs p rest

end

variable {m Q} {Q' : Known → Vmsd → VmPlace → List (BitVec 8) → Prop}

theorem Everywhere.self {known d p rest}
    (h : Everywhere m Q known d p rest) : Q known d p rest := by
  cases d
  exact h.1

section

set_option linter.unusedSectionVars false

variable (hQ : ∀ {known : Known} {name : List (BitVec 8)} {versionId minimum old : ℕ}
  {fields : VmFields} {subs : VmSubs} {p : VmPlace} {rest : List (BitVec 8)},
  (Vmsd.mk name versionId minimum old fields subs).WellFormed known →
  EverywhereFields m Q' fields p (saveSubs m subs p ++ rest) →
  EverywhereSubs m Q' (fields.known ++ known) subs p rest →
  Q known (.mk name versionId minimum old fields subs) p rest →
  Q' known (.mk name versionId minimum old fields subs) p rest)
include hQ

mutual

/-- `Q'` may use `Q` of the description, and `Q'` of what is in it. -/
theorem Everywhere.lift : ∀ {known : Known} {d : Vmsd} {p : VmPlace} {rest : List (BitVec 8)},
    d.WellFormed known → Everywhere m Q known d p rest → Everywhere m Q' known d p rest
  | known, .mk name versionId minimum old fields subs, p, rest, hwf, h => by
    have hwf' := hwf
    rw [Vmsd.WellFormed] at hwf'
    rw [Everywhere] at h ⊢
    have hfields := EverywhereFields.lift hwf'.2.2.2.2.1 h.2.1
    have hsubs := EverywhereSubs.lift hwf'.2.2.2.2.2 h.2.2
    exact ⟨hQ hwf hfields hsubs h.1, hfields, hsubs⟩

theorem EverywhereFields.lift : ∀ {versionId : ℕ} {known : Known} {fields : VmFields}
    {p : VmPlace} {rest : List (BitVec 8)}, fields.WellFormed versionId known →
    EverywhereFields m Q fields p rest → EverywhereFields m Q' fields p rest
  | _, _, .nil, _, _, _, _ => by
    rw [EverywhereFields]
    trivial
  | _, _, .leaf .., _, _, hwf, h => by
    rw [VmFields.WellFormed] at hwf
    rw [EverywhereFields] at h ⊢
    exact EverywhereFields.lift hwf.2.2.2 h
  | _, _, .struct .., _, _, hwf, h => by
    rw [VmFields.WellFormed] at hwf
    rw [EverywhereFields] at h ⊢
    exact ⟨fun i k hik => Everywhere.lift hwf.2.2.1 (h.1 i k hik),
      EverywhereFields.lift hwf.2.2.2 h.2⟩

theorem EverywhereSubs.lift : ∀ {name : List (BitVec 8)} {known : Known} {subs : VmSubs}
    {p : VmPlace} {rest : List (BitVec 8)}, subs.WellFormed name known →
    EverywhereSubs m Q known subs p rest → EverywhereSubs m Q' known subs p rest
  | _, _, .nil, _, _, _, _ => by
    rw [EverywhereSubs]
    trivial
  | _, _, .cons .., _, _, hwf, h => by
    rw [VmSubs.WellFormed] at hwf
    rw [EverywhereSubs] at h ⊢
    exact ⟨fun hneed => Everywhere.lift hwf.2.2.2.1 (h.1 hneed),
      EverywhereSubs.lift hwf.2.2.2.2 h.2⟩

end

end

end Everywhere

/-! ## Memory while loading -/

section Loaded

variable {m m₀ m₁ m₂ : VmMem} {S T : VmPlace → ℕ → Prop} {known : Known} {p : VmPlace}

/-- Loading goes from `m₀` to `m₁` : every byte that changes, and every byte of `S`, becomes
that of `m`. -/
structure Loaded (m m₀ m₁ : VmMem) (S : VmPlace → ℕ → Prop) : Prop where
  saved : ∀ q i, S q i → m₁ q i = m q i
  other : ∀ q i, m₁ q i = m q i ∨ m₁ q i = m₀ q i

theorem Loaded.refl (m m₀ : VmMem) : Loaded m m₀ m₀ fun _ _ => False :=
  ⟨fun _ _ h => h.elim, fun _ _ => .inr rfl⟩

theorem Loaded.trans (h : Loaded m m₀ m₁ S) (h' : Loaded m m₁ m₂ T) :
    Loaded m m₀ m₂ fun q i => S q i ∨ T q i := by
  refine ⟨fun q i hqi => ?_, fun q i => ?_⟩
  · rcases hqi with hS | hT
    · rcases h'.other q i with heq | heq
      · exact heq
      · exact heq.trans (h.saved q i hS)
    · exact h'.saved q i hT
  · rcases h'.other q i with heq | heq
    · exact .inl heq
    · rw [heq]
      exact h.other q i

theorem Loaded.subset (h : Loaded m m₀ m₁ S) (hTS : ∀ q i, T q i → S q i) : Loaded m m₀ m₁ T :=
  ⟨fun q i hT => h.saved q i (hTS q i hT), h.other⟩

/-- The fields that have been read are those of `m`. -/
def KnownOk (known : Known) (p : VmPlace) (m m₀ : VmMem) : Prop :=
  ∀ o w, (o, w) ∈ known → ∀ i < w, m₀ (p ++ [(o, 0)]) i = m (p ++ [(o, 0)]) i

theorem KnownOk.loaded (h : KnownOk known p m m₀) (hl : Loaded m m₀ m₁ S) :
    KnownOk known p m m₁ := by
  intro o w how i hi
  rcases hl.other (p ++ [(o, 0)]) i with heq | heq
  · exact heq
  · exact heq.trans (h o w how i hi)

theorem KnownOk.getLe (h : KnownOk known p m m₀) {o w} (how : (o, w) ∈ known) :
    getLe (m₀ (p ++ [(o, 0)])) w = getLe (m (p ++ [(o, 0)])) w :=
  getLe_congr (h o w how)

theorem VmCount.elems_eq {c : VmCount} (hc : c.Ready known) (h : KnownOk known p m m₀) :
    c.elems p m₀ = c.elems p m := by
  cases c with
  | one => rfl
  | array num => rfl
  | varrayInt32 o | varrayUint32 o | varrayUint16 o | varrayUint8 o => rw [elems, elems, h.getLe hc]

theorem VmLeaf.size_eq {info : VmLeaf} (hi : info.Ready known) (h : KnownOk known p m m₀) :
    info.size p m₀ = info.size p m := by
  cases info with
  | int size => rfl
  | buffer size => rfl
  | vbuffer o factor => rw [size, size, h.getLe hi]

end Loaded

/-! ## Fields -/

section Fields

variable {m m₀ m₁ : VmMem} {known : Known} {p : VmPlace}

@[simp] theorem VmLeaf.put_length (info : VmLeaf) (b : Bytes) (size : ℕ) :
    (info.put b size).length = size := by
  cases info <;> simp [put]

theorem getBuffer_append (b b₀ : Bytes) (size : ℕ) (rest : List (BitVec 8)) (i : ℕ) :
    getBuffer ((List.range size).map b ++ rest) b₀ size i = if i < size then b i else b₀ i := by
  rw [getBuffer]
  split_ifs with hi
  · rw [getElem?_append_left (by simpa using hi)]
    simp [hi]
  · rfl

theorem VmLeaf.get_put (info : VmLeaf) (b b₀ : Bytes) (size : ℕ) (rest : List (BitVec 8)) (i : ℕ) :
    info.get (info.put b size ++ rest) b₀ size i = if i < size then b i else b₀ i := by
  cases info with
  | int n =>
    dsimp only [get, put]
    split_ifs with hi
    · rw [getD_append _ _ _ _ (by simp; omega), getD_eq_getElem _ _ (by simp; omega)]
      simp only [getElem_reverse, getElem_map, getElem_range, length_map, length_range]
      exact congrArg b (by omega)
    · rfl
  | buffer n | vbuffer o factor => exact getBuffer_append b b₀ size rest i

/-- The elements of a field from `i` on. -/
theorem loadLeaf_from (info : VmLeaf) (size offset : ℕ) (rest : List (BitVec 8)) :
    ∀ k i m₀, ∃ m₁,
      (List.range' i k).foldl (fun s j =>
        (s.1.drop size, update s.2 (p ++ [(offset, j)])
          (info.get s.1 (s.2 (p ++ [(offset, j)])) size)))
        (((List.range' i k).flatMap fun j => info.put (m (p ++ [(offset, j)])) size) ++ rest, m₀) =
          (rest, m₁) ∧
      Loaded m m₀ m₁ fun q a => ∃ j, i ≤ j ∧ j < i + k ∧ q = p ++ [(offset, j)] ∧ a < size
  | 0, i, m₀ => ⟨m₀, rfl, (Loaded.refl m m₀).subset fun q a ⟨j, hij, hj, _⟩ => by omega⟩
  | k + 1, i, m₀ => by
    obtain ⟨m₁, hm₁⟩ := @exists_eq _ (update m₀ (p ++ [(offset, i)]) (info.get (info.put (m (p ++
      [(offset, i)])) size ++ (((List.range' (i + 1) k).flatMap fun j => info.put (m (p ++ [(offset,
      j)])) size) ++ rest)) (m₀ (p ++ [(offset, i)])) size))
    obtain ⟨m₂, hrun, hload⟩ := loadLeaf_from info size offset rest k (i + 1) m₁
    have hfirst : Loaded m m₀ m₁ fun q a => q = p ++ [(offset, i)] ∧ a < size := by
      refine ⟨?_, fun q a => ?_⟩
      · rintro q a ⟨rfl, ha⟩
        rw [hm₁, update_self, VmLeaf.get_put, if_pos ha]
      · by_cases hq : q = p ++ [(offset, i)]
        · subst hq
          rw [hm₁, update_self, VmLeaf.get_put]
          split_ifs
          · exact .inl rfl
          · exact .inr rfl
        · rw [hm₁, update_of_ne hq]
          exact .inr rfl
    refine ⟨m₂, ?_, (hfirst.trans hload).subset ?_⟩
    · rw [range'_succ, flatMap_cons, foldl_cons, append_assoc]
      rw [drop_left' (VmLeaf.put_length info _ size), ← hm₁]
      exact hrun
    · rintro q a ⟨j, hij, hj, hq, ha⟩
      rcases eq_or_lt_of_le hij with rfl | hlt
      · exact .inl ⟨hq, ha⟩
      · exact .inr ⟨j, hlt, by omega, hq, ha⟩

theorem loadLeaf_spec (info : VmLeaf) (size offset n : ℕ) (rest : List (BitVec 8)) (m₀ : VmMem) :
    ∃ m₁, loadLeaf info size p offset n
        (((List.range n).flatMap fun j => info.put (m (p ++ [(offset, j)])) size) ++ rest) m₀ =
          (rest, m₁) ∧
      Loaded m m₀ m₁ fun q a => ∃ j < n, q = p ++ [(offset, j)] ∧ a < size := by
  obtain ⟨m₁, hrun, hload⟩ := loadLeaf_from (m := m) (p := p) info size offset rest n 0 m₀
  rw [← range_eq_range'] at hrun
  refine ⟨m₁, hrun, hload.subset ?_⟩
  rintro q a ⟨j, hj, hq, ha⟩
  exact ⟨j, zero_le j, by omega, hq, ha⟩

/-- The load of what `m` saves returns, takes exactly that, and writes only what is in `m`. -/
def LoadsBack (m : VmMem) (known : Known) (d : Vmsd) (p : VmPlace) (rest : List (BitVec 8)) :
    Prop :=
  ∀ m₀, KnownOk known p m m₀ →
    ∃ m₁, loadState d p d.versionId (saveState m d p ++ rest) m₀ = .ok (rest, m₁) ∧
      Loaded m m₀ m₁ (Saved m d p)

/-- The elements of an array of structs from `i` on. -/
theorem loadElems_from {d offset n rest} (h : ∀ i k, i + 1 + k = n →
      LoadsBack m [] d (p ++ [(offset, i)]) (saveElems m d p offset (i + 1) k ++ rest)) :
    ∀ k i m₀, i + k = n → ∃ m₁,
      (List.range' i k).foldlM (fun s j =>
        loadState d (p ++ [(offset, j)]) d.versionId s.1 s.2)
        (saveElems m d p offset i k ++ rest, m₀) = Except.ok (rest, m₁) ∧
      Loaded m m₀ m₁ fun q a => ∃ j, i ≤ j ∧ j < n ∧ Saved m d (p ++ [(offset, j)]) q a
  | 0, i, m₀, hik =>
    ⟨m₀, rfl, (Loaded.refl m m₀).subset fun q a ⟨j, hij, hj, _⟩ => by omega⟩
  | k + 1, i, m₀, hik => by
    obtain ⟨m₁, hone, hfirst⟩ := h i k (by omega) m₀ fun o w how => by simp at how
    obtain ⟨m₂, hrun, hload⟩ := loadElems_from h k (i + 1) m₁ (by omega)
    refine ⟨m₂, ?_, (hfirst.trans hload).subset ?_⟩
    · rw [saveElems, range'_succ, flatMap_cons, foldlM_cons, append_assoc]
      rw [saveElems] at hone
      rw [hone]
      exact hrun
    · rintro q a ⟨j, hij, hj, hsaved⟩
      rcases eq_or_lt_of_le hij with rfl | hlt
      · exact .inl hsaved
      · exact .inr ⟨j, hlt, hj, hsaved⟩

theorem knownOk_leaf {f info} (h : KnownOk known p m m₁) (hload : Loaded m m₀ m₁ fun q a =>
      ∃ j < f.count.elems p m, q = p ++ [(f.offset, j)] ∧ a < info.size p m) :
    KnownOk (leafKnown f info ++ known) p m m₁ := by
  intro o w how i hi
  rcases mem_append.mp how with hmem | hmem
  · unfold leafKnown at hmem
    split at hmem
    · rename_i size hcount
      obtain ⟨rfl, rfl⟩ := Prod.mk.inj (mem_singleton.mp hmem)
      refine hload.saved _ _ ⟨0, ?_, rfl, hi⟩
      rw [hcount]
      exact one_pos
    · simp at hmem
  · exact h o w hmem i hi

/-- The fields of a description are loaded. -/
theorem loadFields_spec {versionId : ℕ} : ∀ {fields : VmFields} {known : Known}
    {rest : List (BitVec 8)} {m₀ : VmMem}, fields.WellFormed versionId known →
    EverywhereFields m (LoadsBack m) fields p rest → KnownOk known p m m₀ →
    ∃ m₁, loadFields fields p versionId (saveFields m fields p ++ rest) m₀ = .ok (rest, m₁) ∧
      Loaded m m₀ m₁ (SavedFields m fields p) ∧ KnownOk (fields.known ++ known) p m m₁
  | .nil, known, rest, m₀, _, _, hk => by
    refine ⟨m₀, by rw [loadFields, saveFields]; rfl, (Loaded.refl m m₀).subset fun q i h => ?_, hk⟩
    rwa [SavedFields] at h
  | .leaf f info fields, known, rest, m₀, hwf, hev, hk => by
    obtain ⟨hver, hcount, hinfo, hwf⟩ := hwf
    obtain ⟨m₁, hleaf, hload⟩ := loadLeaf_spec (m := m) (p := p) info (info.size p m) f.offset
      (f.count.elems p m) (saveFields m fields p ++ rest) m₀
    obtain ⟨m₂, hrun, hload', hk'⟩ :=
      loadFields_spec hwf hev (knownOk_leaf (hk.loaded hload) hload)
    refine ⟨m₂, ?_, (hload.trans hload').subset fun q i h => ?_, ?_⟩
    · rw [loadFields, if_pos hver, info.size_eq hinfo hk, f.count.elems_eq hcount hk, saveFields,
        append_assoc, hleaf]
      exact hrun
    · rwa [SavedFields] at h
    · intro o w how
      refine hk' o w ?_
      rw [VmFields.known] at how
      simp only [mem_append] at how ⊢
      tauto
  | .struct f vmsd fields, known, rest, m₀, hwf, hev, hk => by
    obtain ⟨hver, hcount, -, hwf⟩ := hwf
    obtain ⟨m₁, helems, hload⟩ := loadElems_from (fun i k hik => (hev.1 i k hik).self)
      (f.count.elems p m) 0 m₀ (zero_add _)
    obtain ⟨m₂, hrun, hload', hk'⟩ := loadFields_spec hwf hev.2 (hk.loaded hload)
    refine ⟨m₂, ?_, (hload.trans hload').subset fun q i h => ?_, hk'⟩
    · rw [loadFields, if_pos hver, f.count.elems_eq hcount hk, saveFields, append_assoc,
        range_eq_range']
      rw [saveElems] at helems
      rw [helems]
      exact hrun
    · rcases h with ⟨j, hj, hsaved⟩ | h
      · exact Or.inl ⟨j, zero_le j, hj, hsaved⟩
      · exact .inr h

end Fields

/-! ## Streams only get shorter -/

section Length

/-- The loader takes nothing back. -/
def Consumes (load : VmLoader) : Prop :=
  ∀ p v st m st' m', load p v st m = .ok (st', m') → st'.length ≤ st.length

theorem subsectionAhead_length {name st idstr}
    (h : subsectionAhead name st = some idstr) :
    2 + idstr.length ≤ st.length ∧ 0 < idstr.length := by
  rw [subsectionAhead] at h
  split at h
  · cases h
  · dsimp only at h
    split at h
    · cases h
    · rename_i hcond
      push Not at hcond
      cases h
      have hle : ((st.drop 2).take (st.getD 1 0).toNat).length ≤ (st.drop 2).length :=
        length_take_le' _ _
      rw [length_drop] at hle
      omega

variable {name : List (BitVec 8)} {table : List (List (BitVec 8) × VmLoader)} {p : VmPlace}

theorem subsectionLoad_length (htable : ∀ x ∈ table, Consumes x.2) : ∀ {fuel : ℕ}
    {st st' : List (BitVec 8)} {m m' : VmMem},
    subsectionLoad name table p fuel st m = .ok (st', m') →
    st'.length ≤ st.length ∧ (subsectionAhead name st ≠ none → st'.length < st.length)
  | 0, _, _, _, _, h => by cases h
  | fuel + 1, st, st', m, m', h => by
    rw [subsectionLoad] at h
    split at h
    · rename_i hnone
      cases h
      exact ⟨le_rfl, fun hne => absurd hnone hne⟩
    · rename_i idstr hahead
      split at h
      · cases h
      · rename_i sub hfind
        obtain ⟨hlen, hpos⟩ := subsectionAhead_length hahead
        dsimp only at h
        cases hload : sub.2 p (getBe32 (st.drop (2 + idstr.length)) % 256)
            ((st.drop (2 + idstr.length)).drop 4) m with
        | error e =>
          rw [hload] at h
          cases h
        | ok r =>
          rw [hload] at h
          have hsub := htable sub (mem_of_find?_eq_some hfind) _ _ _ _ _ _ hload
          have hrest := (subsectionLoad_length htable h).1
          simp only [length_drop] at hsub
          omega

theorem loadLeaf_length (info : VmLeaf) (size offset n : ℕ) (st : List (BitVec 8)) (m : VmMem) :
    (loadLeaf info size p offset n st m).1.length ≤ st.length := by
  rw [loadLeaf]
  generalize List.range n = l
  induction l generalizing st m with
  | nil => exact le_rfl
  | cons i l ih =>
    exact (ih _ _).trans (by simp)

theorem foldlM_length {load : ℕ → List (BitVec 8) → VmMem → Except VmErr (List (BitVec 8) × VmMem)}
    (hload : ∀ i st m st' m', load i st m = .ok (st', m') → st'.length ≤ st.length) :
    ∀ {l : List ℕ} {s s' : List (BitVec 8) × VmMem},
      l.foldlM (fun s i => load i s.1 s.2) s = .ok s' → s'.1.length ≤ s.1.length
  | [], s, s', h => by
    obtain rfl := Except.ok.inj h
    exact le_rfl
  | i :: l, s, s', h => by
    rw [foldlM_cons] at h
    cases hone : load i s.1 s.2 with
    | error e =>
      rw [hone] at h
      cases h
    | ok r =>
      rw [hone] at h
      exact (foldlM_length hload h).trans (hload i _ _ _ _ hone)

mutual

theorem loadState_length : ∀ d : Vmsd, Consumes (loadState d)
  | .mk name versionId minimum old fields subs => by
    intro p v st m st' m' h
    rw [loadState] at h
    split_ifs at h
    cases hfields : loadFields fields p v st m with
    | error e =>
      rw [hfields] at h
      cases h
    | ok r =>
      rw [hfields] at h
      exact (subsectionLoad_length (subLoaders_length subs) h).1.trans
        (loadFields_length fields p v st m _ _ hfields)

theorem loadFields_length : ∀ fields : VmFields, Consumes (loadFields fields)
  | .nil => by
    intro p v st m st' m' h
    rw [loadFields] at h
    cases h
    exact le_rfl
  | .leaf f info fields => by
    intro p v st m st' m' h
    rw [loadFields] at h
    split_ifs at h
    · exact (loadFields_length fields _ _ _ _ _ _ h).trans (loadLeaf_length _ _ _ _ _ _)
    · exact loadFields_length fields _ _ _ _ _ _ h
  | .struct f vmsd fields => by
    intro p v st m st' m' h
    rw [loadFields] at h
    split_ifs at h
    · cases helems : (List.range (f.count.elems p m)).foldlM (fun s i =>
          loadState vmsd (p ++ [(f.offset, i)]) vmsd.versionId s.1 s.2) (st, m) with
      | error e =>
        rw [helems] at h
        cases h
      | ok r =>
        rw [helems] at h
        refine (loadFields_length fields _ _ _ _ _ _ h).trans ?_
        have hload : ∀ i st m st' m', loadState vmsd (p ++ [(f.offset, i)]) vmsd.versionId st m =
            .ok (st', m') → st'.length ≤ st.length := fun i => loadState_length vmsd _ _
        exact foldlM_length hload helems
    · exact loadFields_length fields _ _ _ _ _ _ h

theorem subLoaders_length : ∀ subs : VmSubs, ∀ x ∈ subLoaders subs, Consumes x.2
  | .nil, x, hx => by
    rw [subLoaders] at hx
    cases hx
  | .cons _ vmsd subs, x, hx => by
    rw [subLoaders] at hx
    rcases mem_cons.mp hx with rfl | hx
    · exact loadState_length vmsd
    · exact subLoaders_length subs x hx

end

end Length

/-! ## Subsections -/

section Subs

variable {m m₀ : VmMem} {known : Known} {p : VmPlace}

theorem subsectionAhead_header {name vmsd} (rest : List (BitVec 8))
    (hname : ∃ suffix, vmsd.name = name ++ 47 :: suffix) (hlen : vmsd.name.length < 256) :
    subsectionAhead name (subsectionHeader vmsd ++ rest) = some vmsd.name := by
  obtain ⟨suffix, hsuffix⟩ := hname
  have hbyte : (BitVec.ofNat 8 vmsd.name.length).toNat = vmsd.name.length :=
    mod_eq_of_lt hlen
  have hidstr : (((subsectionHeader vmsd ++ rest).drop 2).take vmsd.name.length) = vmsd.name := by
    simp [subsectionHeader, hbyte]
  have hshort : name.length + 1 ≤ vmsd.name.length := by
    rw [hsuffix, length_append, length_cons]
    omega
  have htake : vmsd.name.take name.length = name := by
    rw [hsuffix, take_left]
  rw [subsectionAhead]
  have hfirst : (subsectionHeader vmsd ++ rest).getD 0 0 = qemuVmSubsection := rfl
  have hsecond : (subsectionHeader vmsd ++ rest).getD 1 0 = BitVec.ofNat 8 vmsd.name.length := rfl
  rw [hfirst, hsecond, if_neg (not_not.mpr rfl)]
  dsimp only
  rw [hbyte, hidstr, if_neg]
  rintro (h | h | h)
  · omega
  · exact h rfl
  · exact h htake

theorem getBe32_putBe32 (x : ℕ) (rest : List (BitVec 8)) :
    getBe32 (putBe32 x ++ rest) % 256 = x % 256 := by
  have hbytes : getLe (fun i => (putBe32 x ++ rest).getD (3 - i) 0) 4 = x % 256 ^ 4 := by
    refine getLe_eq_of_leBytes fun i hi => ?_
    rw [putBe32, getD_append _ _ _ _ (by simp; omega), getD_eq_getElem _ _ (by simp; omega)]
    simp only [getElem_reverse, getElem_map, getElem_range, length_map, length_range]
    exact congrArg (leBytes x) (by omega)
  rw [getBe32, hbytes]
  omega

theorem subLoaders_names : ∀ subs : VmSubs, (subLoaders subs).map Prod.fst = subs.names
  | .nil => by rw [subLoaders, VmSubs.names]; rfl
  | .cons _ vmsd subs => by
    rw [subLoaders, VmSubs.names, map_cons, subLoaders_names subs]

/-- A subsection is found under its name. -/
theorem find_subLoaders {name} : ∀ {subs : VmSubs},
    subs.WellFormed name known → ∀ x ∈ subLoaders subs,
      (subLoaders subs).find? (fun s => s.1 == x.1) = some x
  | .nil, _, x, hx => by
    cases hx
  | .cons _ vmsd subs, hwf, x, hx => by
    rw [subLoaders] at hx ⊢
    rcases mem_cons.mp hx with rfl | hx
    · exact find?_cons_of_pos (by simp)
    · rw [find?_cons_of_neg, find_subLoaders hwf.2.2.2.2 x hx]
      intro heq
      refine hwf.2.2.1 ?_
      have hname : vmsd.name = x.1 := eq_of_beq heq
      rw [← subLoaders_names, hname]
      exact mem_map_of_mem hx

theorem Vmsd.WellFormed.name_ok {d : Vmsd} (h : d.WellFormed known) :
    d.name.length < 256 ∧ 0 ∉ d.name := by
  cases d
  exact ⟨h.1, h.2.1⟩

theorem takeWhile_name {l : List (BitVec 8)} (h : 0 ∉ l) : l.takeWhile (· != 0) = l :=
  takeWhile_eq_self_iff.mpr fun x hx => by
    simp only [bne_iff_ne, ne_eq]
    rintro rfl
    exact h hx

/-- The saved subsections are loaded, and the loop goes on after them. -/
theorem subsectionLoad_saved {name : List (BitVec 8)} {table : List (List (BitVec 8) × VmLoader)}
    {rest : List (BitVec 8)} : ∀ {subs : VmSubs} {fuel : ℕ} {m₀ : VmMem},
    (∀ x ∈ subLoaders subs, table.find? (fun s => s.1 == x.1) = some x) →
    subs.WellFormed name known → EverywhereSubs m (LoadsBack m) known subs p rest →
    KnownOk known p m m₀ → (saveSubs m subs p ++ rest).length < fuel →
    ∃ fuel' m₁, rest.length < fuel' ∧
      subsectionLoad name table p fuel (saveSubs m subs p ++ rest) m₀ =
        subsectionLoad name table p fuel' rest m₁ ∧
      Loaded m m₀ m₁ (SavedSubs m subs p)
  | .nil, fuel, m₀, _, _, _, _, hfuel => by
    exact ⟨fuel, m₀, hfuel, rfl, (Loaded.refl m m₀).subset fun q i h => by rwa [SavedSubs] at h⟩
  | .cons needed vmsd subs, fuel, m₀, htable, hwf, hev, hk, hfuel => by
    obtain ⟨hname, hver, -, hvmsd, hwf⟩ := hwf
    have htable' : ∀ x ∈ subLoaders subs, table.find? (fun s => s.1 == x.1) = some x :=
      fun x hx => htable x (mem_cons_of_mem _ hx)
    by_cases hneed : needed m p = true
    · obtain ⟨hlen, hnul⟩ := hvmsd.name_ok
      obtain ⟨m₁, hload, hloaded⟩ := (hev.1 hneed).self m₀ hk
      cases fuel with
      | zero => exact absurd hfuel (not_lt_zero _)
      | succ fuel =>
        rw [saveSubs, if_pos hneed, append_assoc, append_assoc] at hfuel ⊢
        have hfuel₁ : (saveSubs m subs p ++ rest).length < fuel := by
          have hpos : 0 < (subsectionHeader vmsd).length := by simp [subsectionHeader]
          rw [length_append, length_append] at hfuel
          omega
        obtain ⟨fuel', m₂, hfuel', hrun, hloaded'⟩ :=
          subsectionLoad_saved htable' hwf hev.2 (hk.loaded hloaded) hfuel₁
        refine ⟨fuel', m₂, hfuel', ?_, (hloaded.trans hloaded').subset fun q i h => ?_⟩
        · rw [subsectionLoad, subsectionAhead_header _ hname hlen]
          dsimp only
          rw [takeWhile_name hnul, htable _ mem_cons_self]
          have hdrop :
              (subsectionHeader vmsd ++ (saveState m vmsd p ++ (saveSubs m subs p ++ rest))).drop
                (2 + vmsd.name.length) =
                putBe32 vmsd.versionId ++ (saveState m vmsd p ++ (saveSubs m subs p ++ rest)) := by
            have hbyte : (BitVec.ofNat 8 vmsd.name.length).toNat = vmsd.name.length :=
              mod_eq_of_lt hlen
            rw [subsectionHeader, hbyte, take_length, add_comm 2]
            simp
          dsimp only
          rw [hdrop, getBe32_putBe32, mod_eq_of_lt hver,
            drop_left' (by simp [putBe32] : (putBe32 vmsd.versionId).length = 4), hload]
          exact hrun
        · exact h.imp_left And.right
    · rw [saveSubs, if_neg hneed, nil_append] at hfuel ⊢
      obtain ⟨fuel', m₁, hfuel', hrun, hloaded⟩ := subsectionLoad_saved htable' hwf hev.2 hk hfuel
      refine ⟨fuel', m₁, hfuel', hrun, hloaded.subset fun q i h => ?_⟩
      exact h.resolve_left fun h => hneed h.1

end Subs

/-! ## Round trips -/

section RoundTrip

variable {m : VmMem} {known : Known} {p : VmPlace} {rest : List (BitVec 8)}

/-- The load of what `m` saves, with `rest` after it, returns, takes exactly what was saved, and
restores it. -/
def Restores (m : VmMem) (known : Known) (d : Vmsd) (p : VmPlace) (rest : List (BitVec 8)) : Prop :=
  ∀ m₀, KnownOk known p m m₀ →
    ∃ m₁, loadState d p d.versionId (saveState m d p ++ rest) m₀ = .ok (rest, m₁) ∧
      ∀ q i, Saved m d p q i → m₁ q i = m q i

/-- What follows does not look like a subsection. -/
def NothingAhead (_ : Known) (d : Vmsd) (_ : VmPlace) (rest : List (BitVec 8)) : Prop :=
  subsectionAhead d.name rest = none

theorem LoadsBack.restores {d} (h : LoadsBack m known d p rest) : Restores m known d p rest := by
  intro m₀ hk
  obtain ⟨m₁, hrun, hload⟩ := h m₀ hk
  exact ⟨m₁, hrun, hload.saved⟩

/-- If its structs and subsections are loaded back, so is the description, up to the look at
what follows it. -/
theorem loadState_saved {name versionId minimum old} {fields subs} {m₀}
    (hwf : (Vmsd.mk name versionId minimum old fields subs).WellFormed known)
    (hfields : EverywhereFields m (LoadsBack m) fields p (saveSubs m subs p ++ rest))
    (hsubs : EverywhereSubs m (LoadsBack m) (fields.known ++ known) subs p rest)
    (hk : KnownOk known p m m₀) :
    ∃ fuel m₁, rest.length < fuel ∧
      loadState (.mk name versionId minimum old fields subs) p versionId
          (saveState m (.mk name versionId minimum old fields subs) p ++ rest) m₀ =
        subsectionLoad name (subLoaders subs) p fuel rest m₁ ∧
      Loaded m m₀ m₁ (Saved m (.mk name versionId minimum old fields subs) p) := by
  obtain ⟨-, -, hmin, hold, hwff, hwfs⟩ := hwf
  obtain ⟨m₁, hrun, hload, hk'⟩ := loadFields_spec hwff hfields hk
  obtain ⟨fuel, m₂, hfuel, hrun', hload'⟩ :=
    subsectionLoad_saved (find_subLoaders hwfs) hwfs hsubs hk' (lt_succ_self _)
  refine ⟨fuel, m₂, hfuel, ?_, (hload.trans hload').subset fun q i h => by rwa [Saved] at h⟩
  rw [loadState, if_neg (lt_irrefl _), if_neg (not_lt.mpr hold), if_neg (not_lt.mpr hmin),
    saveState, append_assoc, hrun]
  exact hrun'

section

variable {name : List (BitVec 8)} {versionId minimum old : ℕ} {fields : VmFields} {subs : VmSubs}
  (hwf : (Vmsd.mk name versionId minimum old fields subs).WellFormed known)
include hwf

theorem loadsBack_of_nothingAhead
    (hfields : EverywhereFields m (LoadsBack m) fields p (saveSubs m subs p ++ rest))
    (hsubs : EverywhereSubs m (LoadsBack m) (fields.known ++ known) subs p rest)
    (hahead : subsectionAhead name rest = none) :
    LoadsBack m known (.mk name versionId minimum old fields subs) p rest := by
  intro m₀ hk
  obtain ⟨fuel, m₁, hfuel, hrun, hload⟩ := loadState_saved hwf hfields hsubs hk
  refine ⟨m₁, hrun.trans ?_, hload⟩
  cases fuel with
  | zero => exact absurd hfuel (not_lt_zero _)
  | succ fuel => rw [subsectionLoad, hahead]

/-- Where a load works, nothing looked like a subsection : otherwise it would have failed, or
taken more than was saved. -/
theorem nothingAhead_of_restores
    (hfields : EverywhereFields m NothingAhead fields p (saveSubs m subs p ++ rest))
    (hsubs : EverywhereSubs m NothingAhead (fields.known ++ known) subs p rest)
    (h : Restores m known (.mk name versionId minimum old fields subs) p rest) :
    NothingAhead known (.mk name versionId minimum old fields subs) p rest := by
  have hwf' := hwf
  have hk : KnownOk known p m m := fun _ _ _ _ _ => rfl
  obtain ⟨fuel, m₁, -, hrun, -⟩ := loadState_saved hwf
    (EverywhereFields.lift loadsBack_of_nothingAhead hwf'.2.2.2.2.1 hfields)
    (EverywhereSubs.lift loadsBack_of_nothingAhead hwf'.2.2.2.2.2 hsubs) hk
  obtain ⟨m₂, hok, -⟩ := h m hk
  by_contra hahead
  have hlt := (subsectionLoad_length (subLoaders_length subs) (hrun.symm.trans hok)).2 hahead
  exact lt_irrefl _ hlt

end

/-- Every load of a description, and of the structs and subsections in it, works exactly if
nothing that follows one of them looks like a subsection of it. -/
theorem vmstate_roundTrip_iff {d : Vmsd} (hwf : d.WellFormed []) :
    Everywhere m (Restores m) [] d p rest ↔ Everywhere m NothingAhead [] d p rest :=
  ⟨Everywhere.lift nothingAhead_of_restores hwf, fun h =>
    Everywhere.lift (fun _ _ _ => LoadsBack.restores) hwf
      (Everywhere.lift loadsBack_of_nothingAhead hwf h)⟩

end RoundTrip

/-- A struct `a` of one byte, before a buffer of four. -/
def innerVmsd : Vmsd := .mk [97] 1 1 1 (.leaf ⟨0, 1, .one⟩ (.int 1) .nil) .nil

def outerVmsd : Vmsd :=
  .mk [101] 1 1 1 (.struct ⟨0, 1, .one⟩ innerVmsd (.leaf ⟨8, 1, .one⟩ (.buffer 4) .nil)) .nil

/-- The object with the given buffer, and zeroes elsewhere. -/
def bufferMem (b : List (BitVec 8)) : VmMem := fun q i => if q = [(8, 0)] then b.getD i 0 else 0

theorem outerVmsd_wellFormed : outerVmsd.WellFormed [] := by
  simp [outerVmsd, innerVmsd, Vmsd.WellFormed, VmFields.WellFormed, VmSubs.WellFormed,
    VmCount.Ready, VmLeaf.Ready]

/-- With a buffer of zeroes, the round trip works. -/
theorem vmstate_roundTrip_zeroes :
    Everywhere (bufferMem []) (Restores (bufferMem [])) [] outerVmsd [] [] := by
  refine (vmstate_roundTrip_iff outerVmsd_wellFormed).mpr ?_
  simp only [outerVmsd, innerVmsd, Everywhere, EverywhereFields, EverywhereSubs, NothingAhead,
    VmCount.elems, and_true]
  refine ⟨by decide, fun i k hik => ?_⟩
  obtain ⟨rfl, rfl⟩ : i = 0 ∧ k = 0 := by omega
  decide

/-- With a buffer that starts like the header of a subsection of the struct before it, the
load fails. -/
theorem vmstate_roundTrip_fail :
    loadState outerVmsd [] 1 (saveState (bufferMem [5, 2, 97, 0]) outerVmsd []) (bufferMem []) =
        .error .enoent ∧
    (loadState outerVmsd [] 1 (saveState (bufferMem [6, 2, 97, 0]) outerVmsd [])
      (bufferMem [])).isOk = true := by
  constructor
  · rfl
  · decide +kernel

end QemuArm
