import QemuArm.DispatchTree

/-!
# Compaction of the dispatch tree

`phys_page_compact` lets an entry whose node has a single child refer to what the child
refers to, and count the levels it skips. A walk then no longer looks at the page bits of the
skipped levels, so that a page without an entry may end at a leaf of other pages. The pages
that had a leaf keep it (`physPageCompactAll_spec`).
-/

namespace QemuArm

open List AddressSpaceDispatch

/-- The level of an entry, when `lev` gives the levels of the nodes. -/
def refLevel (levels : ℕ) (lev : ℕ → ℕ) : EntryRef → ℕ
  | .physMap => levels
  | .node k _ => lev k

/-- An entry at `level` that may skip levels, in a tree of `n` nodes with leaves in `leaf`. -/
inductive SkipOK (n : ℕ) (lev : ℕ → ℕ) (leaf : ℕ → Prop) (level : ℕ) : PhysPageEntry → Prop
  | leaf {ptr : ℕ} : leaf ptr → SkipOK n lev leaf level ⟨0, ptr⟩
  | nil {skip : ℕ} : skip ≠ 0 → skip ≤ level → SkipOK n lev leaf level ⟨skip, physMapNodeNil⟩
  | node {skip k : ℕ} : skip ≠ 0 → k < n → lev k + skip = level →
      SkipOK n lev leaf level ⟨skip, k⟩

/-- A tree whose entries may skip levels. -/
structure SkipTree (levels : ℕ) (d : AddressSpaceDispatch) (lev : ℕ → ℕ) (leaf : ℕ → Prop) :
    Prop where
  le_nil : d.nodes.length ≤ physMapNodeNil
  leaf_lt : ∀ {m}, leaf m → m < physMapNodeNil
  ok : ∀ {r e}, d.entry r = some e → SkipOK d.nodes.length lev leaf (refLevel levels lev r) e

theorem Tree.skipTree {levels : ℕ} {d} {lab}
    {leaf} (hT : Tree levels d lab leaf) (hleaf : ∀ {m}, leaf m → m < physMapNodeNil) :
    SkipTree levels d (fun k => (lab k).1) leaf := by
  refine ⟨hT.le_nil, hleaf, fun {r e} he => ?_⟩
  have hl : refLevel levels (fun k => (lab k).1) r = (refSpan levels lab r).1 := by
    cases r <;> rfl
  rw [hl]
  cases hT.ok he with
  | leaf h => exact .leaf h
  | nil h => exact .nil one_ne_zero (Nat.one_le_iff_ne_zero.2 h)
  | node hk h => exact .node one_ne_zero hk h.symm

section

variable {levels : ℕ} {d d' : AddressSpaceDispatch} {lev : ℕ → ℕ} {leaf : ℕ → Prop}

section

variable (hT : SkipTree levels d lev leaf)
include hT

theorem SkipTree.ne_nil {k : ℕ} (hk : k < d.nodes.length) : k ≠ physMapNodeNil :=
  (hk.trans_le hT.le_nil).ne

/-- One step of a walk. -/
theorem SkipTree.walk_node {skip k level : ℕ} (hs : skip ≠ 0) (hk : k < d.nodes.length)
    (hl : lev k + skip = level) (idx : ℕ) :
    ∃ c, d.entry (.node k (l2Index idx (lev k))) = some c ∧
      physPageWalk d.nodes level ⟨skip, k⟩ idx = physPageWalk d.nodes (lev k) c idx := by
  obtain ⟨c, hc⟩ := entry_node_of_lt hk (l2Index idx (lev k))
  subst hl
  exact ⟨c, hc, physPageWalk_node hs (hT.ne_nil hk) hc⟩

/-- Every walk ends, at a leaf or at the unassigned section. -/
theorem SkipTree.exists_walk (idx : ℕ) :
    ∀ (l : ℕ) {r : EntryRef} {e : PhysPageEntry}, d.entry r = some e → refLevel levels lev r = l →
      ∃ v, physPageWalk d.nodes l e idx = some v ∧ (v = 0 ∨ leaf v) := by
  intro l
  induction l using Nat.strong_induction_on with
  | _ l ih =>
    intro r e he hl
    have hok := hT.ok he
    rw [hl] at hok
    cases hok with
    | leaf h => exact ⟨_, physPageWalk_leaf _ _ _ _, .inr h⟩
    | nil hs hle => exact ⟨0, physPageWalk_nil _ hle hs _, .inl rfl⟩
    | @node skip k hs hk hlk =>
      obtain ⟨c, hc, hw⟩ := hT.walk_node hs hk hlk idx
      obtain ⟨v, hv, hleaf⟩ := ih (lev k) (by omega) hc rfl
      exact ⟨v, hw.trans hv, hleaf⟩

end

/-- From `d` to `d'` the entries at `level` and above are kept, apart from those in `except`,
and so is every section a walk ends at, other than the unassigned one. -/
structure Kept (levels : ℕ) (lev : ℕ → ℕ) (leaf : ℕ → Prop) (level : ℕ)
    (exempt : EntryRef → Prop) (d d' : AddressSpaceDispatch) : Prop where
  tree : SkipTree levels d' lev leaf
  frame : d' = { d with physMap := d'.physMap, nodes := d'.nodes }
  length_eq : d'.nodes.length = d.nodes.length
  above : ∀ {r e}, d.entry r = some e → level ≤ refLevel levels lev r → ¬exempt r →
    d'.entry r = some e
  walk : ∀ {r e idx v}, d.entry r = some e → v ≠ 0 →
    physPageWalk d.nodes (refLevel levels lev r) e idx = some v → ∃ e', d'.entry r = some e' ∧
      physPageWalk d'.nodes (refLevel levels lev r) e' idx = some v

namespace Kept

variable {level level' : ℕ} {exempt exempt' : EntryRef → Prop} {d₁ d₂ : AddressSpaceDispatch}

theorem refl (hT : SkipTree levels d lev leaf) : Kept levels lev leaf level exempt d d where
  tree := hT
  frame := rfl
  length_eq := rfl
  above := fun he _ _ => he
  walk := fun he _ hw => ⟨_, he, hw⟩

theorem trans (h₁ : Kept levels lev leaf level exempt d d₁)
    (h₂ : Kept levels lev leaf level exempt d₁ d₂) : Kept levels lev leaf level exempt d d₂ where
  tree := h₂.tree
  frame := by rw [h₂.frame, h₁.frame]
  length_eq := h₂.length_eq.trans h₁.length_eq
  above := fun he hl hx => h₂.above (h₁.above he hl hx) hl hx
  walk := fun he hv hw => by
    obtain ⟨e₁, he₁, hw₁⟩ := h₁.walk he hv hw
    exact h₂.walk he₁ hv hw₁

theorem mono (h : Kept levels lev leaf level exempt d d₁)
    (hx : ∀ r, level' ≤ refLevel levels lev r → ¬exempt' r →
      level ≤ refLevel levels lev r ∧ ¬exempt r) : Kept levels lev leaf level' exempt' d d₁ :=
  { h with above := fun {r _} he hl hr => h.above he (hx r hl hr).1 (hx r hl hr).2 }

end Kept

/-- Writing an entry from which a walk ends where it did. -/
theorem kept_setEntry (hT : SkipTree levels d lev leaf) {lp} {e e'}
    (he : d.entry lp = some e) (hok : SkipOK d.nodes.length lev leaf (refLevel levels lev lp) e')
    (hwalk : ∀ {idx v}, v ≠ 0 → physPageWalk d.nodes (refLevel levels lev lp) e idx = some v →
      physPageWalk d.nodes (refLevel levels lev lp) e' idx = some v) (level : ℕ) :
    Kept levels lev leaf level (· = lp) d (d.setEntry lp e') where
  tree := by
    refine ⟨by simpa using hT.le_nil, hT.leaf_lt, fun {r c} hc => ?_⟩
    rw [length_setEntry]
    by_cases hr : r = lp
    · subst hr
      rw [entry_setEntry_self he, Option.some.injEq] at hc
      subst hc
      exact hok
    · rw [entry_setEntry_ne hr] at hc
      exact hT.ok hc
  frame := setEntry_frame d lp e'
  length_eq := length_setEntry d lp e'
  above := fun hc _ hr => by rw [entry_setEntry_ne hr, hc]
  walk := fun {r c idx v} hc hv hw => by
    have key : ∀ (l : ℕ) {r c}, refLevel levels lev r = l → d.entry r = some c →
        physPageWalk d.nodes l c idx = some v → ∃ c', (d.setEntry lp e').entry r = some c' ∧
          physPageWalk (d.setEntry lp e').nodes l c' idx = some v := by
      intro l
      induction l using Nat.strong_induction_on with
      | _ l ih =>
        intro r c hl hc hw
        obtain ⟨c', hc', hok', hw'⟩ : ∃ c', (d.setEntry lp e').entry r = some c' ∧
            SkipOK d.nodes.length lev leaf l c' ∧ physPageWalk d.nodes l c' idx = some v := by
          by_cases hr : r = lp
          · subst hr
            subst hl
            exact ⟨e', entry_setEntry_self he e', hok, hwalk hv
              (by rwa [Option.some.inj (he.symm.trans hc)])⟩
          · exact ⟨c, by rw [entry_setEntry_ne hr, hc], hl ▸ hT.ok hc, hw⟩
        refine ⟨c', hc', ?_⟩
        cases hok' with
        | leaf => rwa [physPageWalk_leaf] at hw' ⊢
        | nil hs hle => rwa [physPageWalk_nil _ hle hs] at hw' ⊢
        | @node skip k hs hk hlk =>
          obtain ⟨a, ha, hwa⟩ := hT.walk_node hs hk hlk idx
          rw [hwa] at hw'
          obtain ⟨a', ha', hwa'⟩ := ih (lev k) (by omega) rfl ha hw'
          rw [← hlk, physPageWalk_node hs (hT.ne_nil hk) ha', hwa']
    exact key _ rfl hc hw

/-! ## One entry -/

/-- The position of node `k` is not empty. -/
def isChild (d : AddressSpaceDispatch) (k : ℕ) (i : Fin l2Size) : Bool :=
  (d.entry (.node k i)).any fun c => c.ptr ≠ physMapNodeNil

/-- The entry at `lp` may refer to what the only child of its node refers to. -/
theorem physPageSkipChild_spec (hT : SkipTree levels d lev leaf) {lp}
    {skip k validPtr valid : ℕ} (he : d.entry lp = some ⟨skip, k⟩) (hs : skip ≠ 0)
    (hk : k < d.nodes.length) (hl : lev k + skip = refLevel levels lev lp)
    (hone : valid = 1 → ∃ x : Fin l2Size, validPtr = x ∧ isChild d k x ∧
      ∀ j, isChild d k j → j = x) (level : ℕ) :
    ∃ d' e', physPageSkipChild d lp k validPtr valid = .ok d' ∧
      Kept levels lev leaf level (· = lp) d d' ∧ d'.entry lp = some e' ∧
      e'.ptr ≠ physMapNodeNil := by
  have hsame : ∃ d' e', (.ok d : Except DispatchError AddressSpaceDispatch) = .ok d' ∧
      Kept levels lev leaf level (· = lp) d d' ∧ d'.entry lp = some e' ∧
      e'.ptr ≠ physMapNodeNil := ⟨d, _, rfl, Kept.refl hT, he, hT.ne_nil hk⟩
  unfold physPageSkipChild
  by_cases hv : valid = 1
  · obtain ⟨x, rfl, hx, honly⟩ := hone hv
    obtain ⟨c, hc⟩ := entry_node_of_lt hk x
    have hcn : c.ptr ≠ physMapNodeNil := by simpa [isChild, hc] using hx
    -- a walk through the node ends at a section other than the unassigned one only below `c`
    have hwalk : ∀ {idx v}, v ≠ 0 →
        physPageWalk d.nodes (refLevel levels lev lp) ⟨skip, k⟩ idx = some v →
        physPageWalk d.nodes (lev k) c idx = some v := by
      intro idx v hv hw
      obtain ⟨a, ha, hwa⟩ := hT.walk_node hs hk hl idx
      rw [hwa] at hw
      by_cases hax : isChild d k (l2Index idx (lev k))
      · rw [honly _ hax, hc, Option.some.injEq] at ha
        rwa [ha]
      · have han : a.ptr = physMapNodeNil := by simpa [isChild, ha] using hax
        exfalso
        cases hT.ok ha with
        | leaf h => exact (hT.leaf_lt h).ne han
        | nil hs' hle =>
          rw [physPageWalk_nil _ (show _ ≤ lev k from hle) hs', Option.some.injEq] at hw
          exact hv hw.symm
        | node _ hk' => exact hT.ne_nil hk' han
    rw [if_neg (not_not.2 hv), dif_pos x.isLt, he, orFail_some, except_ok_bind, hc, orFail_some,
      except_ok_bind]
    split_ifs with hfull hleaf
    · exact hsame
    · refine ⟨_, _, rfl, kept_setEntry hT he ?_ ?_ level, entry_setEntry_self he _, hcn⟩
      · cases hT.ok hc with
        | leaf h => exact .leaf h
        | nil hs' | node hs' => exact absurd hleaf hs'
      · intro idx v hv hw
        have := hwalk hv hw
        obtain ⟨cs, cp⟩ := c
        subst hleaf
        rwa [physPageWalk_leaf] at this ⊢
    · have hlt : skip + c.skip < 8 := not_le.1 hfull
      refine ⟨_, _, rfl, ?_, entry_setEntry_self he _, hcn⟩
      simp only [Nat.mod_eq_of_lt (show skip + c.skip < 2 ^ 6 by omega)]
      cases hT.ok hc with
      | leaf => exact absurd rfl hleaf
      | nil => exact absurd rfl hcn
      | @node s m hs' hm hlm =>
        have hlm' : lev m + s = lev k := hlm
        refine kept_setEntry hT he (.node (show skip + s ≠ 0 by omega) hm
          (show lev m + (skip + s) = _ by omega)) ?_ level
        intro idx v hv hw
        have hw' := hwalk hv hw
        obtain ⟨a, ha, hwa⟩ := hT.walk_node hs' hm hlm' idx
        obtain ⟨b, hb, hwb⟩ := hT.walk_node (show skip + s ≠ 0 by omega) hm
          (show lev m + (skip + s) = refLevel levels lev lp by omega) idx
        rw [ha, Option.some.injEq] at hb
        subst hb
        rw [hwb, ← hwa, hw']
  · rw [if_pos hv]
    exact hsame

/-! ## The loop over the children -/

/-- `compact` is a compaction of the entries at the levels below `level`. -/
def Compacts (levels : ℕ) (lev : ℕ → ℕ) (leaf : ℕ → Prop) (level : ℕ)
    (compact : AddressSpaceDispatch → EntryRef → Except DispatchError AddressSpaceDispatch) :
    Prop :=
  ∀ {d lp e}, SkipTree levels d lev leaf → d.entry lp = some e → e.skip ≠ 0 →
    e.ptr ≠ physMapNodeNil → refLevel levels lev lp < level →
    ∃ d' e', compact d lp = .ok d' ∧
      Kept levels lev leaf (refLevel levels lev lp) (· = lp) d d' ∧ d'.entry lp = some e' ∧
      e'.ptr ≠ physMapNodeNil

/-- The children of a node are compacted, and their number and the last one returned. -/
theorem physPageCompactChildren_spec {level k : ℕ} {compact}
    (hcompact : Compacts levels lev leaf level compact) (hlev : lev k < level) :
    ∀ (is : List (Fin l2Size)) {d : AddressSpaceDispatch} (validPtr valid : ℕ),
      SkipTree levels d lev leaf → k < d.nodes.length → is.Nodup →
      ∃ d', physPageCompactChildren k compact is d validPtr valid =
          .ok (d', ((is.filter (isChild d k)).map Fin.val).getLastD validPtr,
            valid + (is.filter (isChild d k)).length) ∧
        Kept levels lev leaf (lev k) (fun r => ∃ i ∈ is, r = .node k i) d d' ∧
        ∀ j, isChild d' k j = isChild d k j := by
  intro is
  induction is with
  | nil => exact fun validPtr valid hT _ _ => ⟨_, rfl, Kept.refl hT, fun _ => rfl⟩
  | cons i is ih =>
    intro d validPtr valid hT hk hnd
    obtain ⟨hi, hnd⟩ := nodup_cons.1 hnd
    obtain ⟨c, hc⟩ := entry_node_of_lt hk i
    rw [physPageCompactChildren, hc, orFail_some, except_ok_bind]
    by_cases hnil : c.ptr = physMapNodeNil
    · have hfalse : isChild d k i = false := by simp [isChild, hc, hnil]
      obtain ⟨d', hres, hkept, hsame⟩ := ih validPtr valid hT hk hnd
      refine ⟨d', ?_, hkept.mono fun r hl hr => ⟨hl, ?_⟩, hsame⟩
      · rw [if_pos hnil, hres, filter_cons_of_neg (by simp [hfalse])]
      · rintro ⟨j, hj, rfl⟩
        exact hr ⟨j, mem_cons_of_mem i hj, rfl⟩
    · have htrue : isChild d k i = true := by simp [isChild, hc, hnil]
      obtain ⟨d₁, c₁, hd₁, hkept₁, hc₁, hcn₁⟩ : ∃ d₁ c₁,
          (if c.skip ≠ 0 then compact d (.node k i) else .ok d) = .ok d₁ ∧
          Kept levels lev leaf (lev k) (· = .node k i) d d₁ ∧
          d₁.entry (.node k i) = some c₁ ∧ c₁.ptr ≠ physMapNodeNil := by
        split_ifs with hs
        · exact hcompact hT hc hs hnil hlev
        · exact ⟨d, c, rfl, Kept.refl hT, hc, hnil⟩
      have hsame₁ : ∀ j, isChild d₁ k j = isChild d k j := by
        intro j
        by_cases hj : j = i
        · rw [hj, htrue]
          simp [isChild, hc₁, hcn₁]
        · obtain ⟨a, ha⟩ := entry_node_of_lt hk j
          have ha₁ := hkept₁.above ha le_rfl (by simpa using hj)
          simp [isChild, ha, ha₁]
      obtain ⟨d', hres, hkept, hsame⟩ := ih i (valid + 1) hkept₁.tree
        (by rwa [hkept₁.length_eq]) hnd
      have hfilter : is.filter (isChild d₁ k) = is.filter (isChild d k) :=
        filter_congr fun j _ => hsame₁ j
      rw [hfilter] at hres
      refine ⟨d', ?_, (hkept₁.mono fun r hl hr => ⟨hl, ?_⟩).trans
        (hkept.mono fun r hl hr => ⟨hl, ?_⟩), fun j => (hsame j).trans (hsame₁ j)⟩
      · rw [if_neg hnil, hd₁, except_ok_bind, hres, filter_cons_of_pos htrue]
        simp only [map_cons, getLastD_cons, length_cons]
        rw [add_assoc, add_comm 1]
      · rintro rfl
        exact hr ⟨i, mem_cons_self, rfl⟩
      · rintro ⟨j, hj, rfl⟩
        exact hr ⟨j, mem_cons_of_mem i hj, rfl⟩

/-! ## The whole tree -/

/-- `phys_page_compact` keeps what the tree maps. -/
theorem compacts_physPageCompact (depth : ℕ) :
    Compacts levels lev leaf (depth + 1) (physPageCompact depth) := by
  induction depth with
  | zero =>
    intro d lp e hT he hs hn hlt
    cases hT.ok he with
    | leaf => exact absurd rfl hs
    | nil => exact absurd rfl hn
    | node => omega
  | succ depth ih =>
    intro d lp e hT he hs hn hlt
    cases hT.ok he with
    | leaf => exact absurd rfl hs
    | nil => exact absurd rfl hn
    | @node skip k hs' hk hl =>
      obtain ⟨d₁, hres, hkept, hsame⟩ := physPageCompactChildren_spec ih
        (show lev k < depth + 1 by omega) (finRange l2Size) l2Size 0 hT hk (nodup_finRange _)
      have he₁ : d₁.entry lp = some ⟨skip, k⟩ := hkept.above he (by omega) (by
        rintro ⟨i, _, rfl⟩
        have : lev k + skip = lev k := hl
        omega)
      have hone : 0 + ((finRange l2Size).filter (isChild d k)).length = 1 →
          ∃ x : Fin l2Size, (((finRange l2Size).filter (isChild d k)).map
            Fin.val).getLastD l2Size = x ∧ isChild d₁ k x ∧ ∀ j, isChild d₁ k j → j = x := by
        intro hone
        rw [zero_add, length_eq_one_iff] at hone
        obtain ⟨x, hx⟩ := hone
        have hmem : ∀ j, isChild d k j = true ↔ j = x := by
          intro j
          rw [← @List.mem_singleton _ j x, ← hx]
          simp
        refine ⟨x, by rw [hx]; rfl, by rw [hsame, (hmem x).2 rfl], fun j hj => (hmem j).1 ?_⟩
        rwa [hsame] at hj
      obtain ⟨d₂, e₂, hres₂, hkept₂, he₂, hn₂⟩ := physPageSkipChild_spec hkept.tree he₁ hs'
        (by rwa [hkept.length_eq]) hl hone (refLevel levels lev lp)
      refine ⟨d₂, e₂, ?_, (hkept.mono fun r hr _ => ⟨by omega, ?_⟩).trans hkept₂, he₂, hn₂⟩
      · rw [physPageCompact, he, orFail_some, except_ok_bind, if_neg hn, hres, except_ok_bind]
        exact hres₂
      · rintro ⟨i, _, rfl⟩
        have hle : lev k + skip ≤ lev k := hl.le.trans hr
        exact hle.not_gt (Nat.lt_add_of_pos_right (pos_of_ne_zero hs'))

/-- Compaction succeeds, and a page keeps the section it had, unless it had none. -/
theorem physPageCompactAll_spec {t} (hT : SkipTree t.l2Levels d lev leaf) :
    ∃ d', physPageCompactAll t d = .ok d' ∧ SkipTree t.l2Levels d' lev leaf ∧
      d' = { d with physMap := d'.physMap, nodes := d'.nodes } ∧
      ∀ idx v, v ≠ 0 → physPageWalk d.nodes t.l2Levels d.physMap idx = some v →
        physPageWalk d'.nodes t.l2Levels d'.physMap idx = some v := by
  have hroot : d.entry .physMap = some d.physMap := rfl
  have hsame : ∃ d', (.ok d : Except DispatchError AddressSpaceDispatch) = .ok d' ∧
      Kept t.l2Levels lev leaf t.l2Levels (· = .physMap) d d' := ⟨d, rfl, Kept.refl hT⟩
  obtain ⟨d', hres, hkept⟩ : ∃ d', physPageCompactAll t d = .ok d' ∧
      Kept t.l2Levels lev leaf t.l2Levels (· = .physMap) d d' := by
    unfold physPageCompactAll
    split_ifs with hs
    · by_cases hn : d.physMap.ptr = physMapNodeNil
      · have hres : physPageCompact t.l2Levels d .physMap = .ok d := by
          rw [show t.l2Levels = (64 - t.bits - 1) / 9 + 1 from rfl, physPageCompact, hroot,
            orFail_some, except_ok_bind, if_pos hn]
        rw [hres]
        exact hsame
      · obtain ⟨d', e', hres, hkept, -⟩ := compacts_physPageCompact t.l2Levels hT hroot hs hn
          (Nat.lt_succ_self _)
        exact ⟨d', hres, hkept⟩
    · exact hsame
  refine ⟨d', hres, hkept.tree, hkept.frame, fun idx v hv hw => ?_⟩
  obtain ⟨a, ha, hwa⟩ := hkept.walk hroot hv hw
  cases ha
  exact hwa

end

end QemuArm
