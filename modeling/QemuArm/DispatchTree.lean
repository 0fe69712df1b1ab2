import QemuArm.Dispatch

/-!
# Entering pages into the dispatch tree

A node at level `l` covers the pages whose number has a given quotient by `512 ^ (l + 1)`;
each of its entries covers those with one quotient by `512 ^ l`. `Tree` says that every
entry is a leaf, is empty, or refers to a node that covers the pages of the entry. The walk
of `phys_page_find` for a page then only reads entries that cover it, and a write to an entry
can change the result for the pages of the entry only (`Tree.walk_congr`).

`physPageSet_spec` : entering a leaf for a range of unassigned pages succeeds, with the nodes
that `phys_page_set` reserves, and afterwards the walk gives the leaf on the range and what it
gave before everywhere else.
-/

namespace QemuArm

open AddressSpaceDispatch Nat Option

theorem two_pow_mul_nine (l : ℕ) : 2 ^ (l * 9) = l2Size ^ l := by
  rw [mul_comm, pow_mul]
  norm_num

theorem l2Index_val (index l : ℕ) : (l2Index index l : ℕ) = index / l2Size ^ l % l2Size := by
  show index >>> (l * 9) &&& (2 ^ 9 - 1) = _
  rw [and_two_pow_sub_one_eq_mod, shiftRight_eq_div_pow, two_pow_mul_nine]

/-! ## Reading and writing entries -/

namespace AddressSpaceDispatch

variable {d : AddressSpaceDispatch}

theorem entry_node_of_lt {k} (h : k < d.nodes.length) (i : Fin l2Size) :
    ∃ e, d.entry (.node k i) = some e := by
  simp [entry, h]

theorem lt_of_entry_node {k i e} (h : d.entry (.node k i) = some e) : k < d.nodes.length := by
  by_contra hk
  simp [entry, List.getElem?_eq_none (not_lt.1 hk)] at h

@[simp] theorem length_setEntry (d : AddressSpaceDispatch) (lp : EntryRef) (e : PhysPageEntry) :
    (d.setEntry lp e).nodes.length = d.nodes.length := by
  cases lp <;> simp [setEntry]

theorem entry_setEntry_self {lp c} (h : d.entry lp = some c)
    (e : PhysPageEntry) : (d.setEntry lp e).entry lp = some e := by
  cases lp with
  | physMap => rfl
  | node k i =>
    have hk := lt_of_entry_node h
    simp [setEntry, entry, hk]

theorem entry_setEntry_ne {lp r} (h : r ≠ lp) (e : PhysPageEntry) :
    (d.setEntry lp e).entry r = d.entry r := by
  cases lp with
  | physMap =>
    cases r with
    | physMap => exact absurd rfl h
    | node k i => rfl
  | node k i =>
    cases r with
    | physMap => rfl
    | node k' i' =>
      simp only [setEntry, entry, List.getElem?_modify]
      split_ifs with hk
      · subst hk
        have hi : (i : ℕ) ≠ i' := fun hi => h (by rw [Fin.ext hi])
        cases d.nodes[k]? with
        | none => rfl
        | some p => simp [Vector.getElem_set_ne, hi]
      · simp

theorem setEntry_frame (d : AddressSpaceDispatch) (lp : EntryRef) (e : PhysPageEntry) :
    d.setEntry lp e = { d with physMap := (d.setEntry lp e).physMap,
                               nodes := (d.setEntry lp e).nodes } := by
  cases lp <;> rfl

end AddressSpaceDispatch

/-! ## The walk -/

theorem physPageWalk_leaf (nodes : List PhysNode) (i ptr index : ℕ) :
    physPageWalk nodes i ⟨0, ptr⟩ index = some ptr := by
  rw [physPageWalk, if_pos rfl]

theorem physPageWalk_nil (nodes : List PhysNode) {i skip} (h : skip ≤ i) (hs : skip ≠ 0)
    (index : ℕ) : physPageWalk nodes i ⟨skip, physMapNodeNil⟩ index = some 0 := by
  rw [physPageWalk, if_neg hs, if_neg (by simpa using h), if_pos rfl]
  rfl

variable {d : AddressSpaceDispatch} {k index l idx : ℕ} {lab : ℕ → ℕ × ℕ}

theorem physPageWalk_node {skip c} (hs : skip ≠ 0)
    (hk : k ≠ physMapNodeNil) (hc : d.entry (.node k (l2Index index l)) = some c) :
    physPageWalk d.nodes (l + skip) ⟨skip, k⟩ index = physPageWalk d.nodes l c index := by
  rw [physPageWalk, if_neg hs, if_neg (by simp), if_neg hk]
  obtain ⟨p, hp, rfl⟩ := map_eq_some_iff.1 hc
  show d.nodes[k]?.bind _ = _
  simp only [hp, Option.bind_some, Nat.add_sub_cancel]

/-! ## The shape of the tree -/

/-- The pages that an entry covers, as a level and a quotient by `512 ^ level`, when `lab`
gives the level and the quotient of each node. -/
def refSpan (levels : ℕ) (lab : ℕ → ℕ × ℕ) : EntryRef → ℕ × ℕ
  | .physMap => (levels, 0)
  | .node k i => ((lab k).1, (lab k).2 * l2Size + i)

/-- The page is among those of the span. -/
def InSpan (span : ℕ × ℕ) (idx : ℕ) : Prop := idx / l2Size ^ span.1 = span.2

/-- An entry that covers `span`, in a tree of `n` nodes whose leaves satisfy `leaf`. -/
inductive EntryOK (n : ℕ) (lab : ℕ → ℕ × ℕ) (leaf : ℕ → Prop) (span : ℕ × ℕ) : PhysPageEntry → Prop
  | leaf {ptr : ℕ} : leaf ptr → (span.1 ≠ 0 → ptr ≠ 0) → EntryOK n lab leaf span ⟨0, ptr⟩
  | nil : span.1 ≠ 0 → EntryOK n lab leaf span ⟨1, physMapNodeNil⟩
  | node {k : ℕ} : k < n → span.1 = (lab k).1 + 1 → (lab k).2 = span.2 →
      EntryOK n lab leaf span ⟨1, k⟩

/-- A tree before compaction. -/
structure Tree (levels : ℕ) (d : AddressSpaceDispatch) (lab : ℕ → ℕ × ℕ) (leaf : ℕ → Prop) :
    Prop where
  le_nil : d.nodes.length ≤ physMapNodeNil
  ok : ∀ {r e}, d.entry r = some e → EntryOK d.nodes.length lab leaf (refSpan levels lab r) e

theorem EntryOK.mono {n n' lab' leaf leaf'} {span e} (h : EntryOK n lab leaf span e) (hn : n ≤ n')
    (hlab : ∀ k < n, lab' k = lab k) (hleaf : ∀ m, leaf m → leaf' m) :
    EntryOK n' lab' leaf' span e := by
  cases h with
  | leaf h1 h2 => exact .leaf (hleaf _ h1) h2
  | nil h => exact .nil h
  | node hk h1 h2 =>
    rw [← hlab _ hk] at h1 h2
    exact .node (hk.trans_le hn) h1 h2

theorem inSpan_iff {p} : InSpan (l, p) idx ↔ p * l2Size ^ l ≤ idx ∧ idx < (p + 1) * l2Size ^ l := by
  have hpos : 0 < l2Size ^ l := by positivity
  show idx / l2Size ^ l = p ↔ _
  rw [Nat.div_eq_iff hpos, add_mul, one_mul]
  omega

theorem l2Index_eq {q : ℕ} {i : Fin l2Size} (h : InSpan (l, q * l2Size + i) idx) :
    l2Index idx l = i := by
  have h' : idx / l2Size ^ l = q * l2Size + i := h
  refine Fin.ext ?_
  rw [l2Index_val, h', mul_add_mod', mod_eq_of_lt i.isLt]

/-- A page that a node covers is covered by the entry of the node that its number selects. -/
theorem inSpan_l2Index {q} (h : InSpan (l + 1, q) idx) :
    InSpan (l, q * l2Size + l2Index idx l) idx := by
  have h' : idx / l2Size ^ (l + 1) = q := h
  show idx / l2Size ^ l = q * l2Size + _
  rw [l2Index_val, ← h', pow_succ, ← Nat.div_div_eq_div_mul]
  exact (Nat.div_add_mod' _ _).symm

/-- The first page of a span is the one on its boundary. -/
theorem InSpan.eq_of_mod {p} (h : InSpan (l, p) idx) (hmod : idx % l2Size ^ l = 0) :
    idx = p * l2Size ^ l := by
  have h' : idx / l2Size ^ l = p := h
  rw [← h']
  exact (Nat.div_mul_cancel (Nat.dvd_of_mod_eq_zero hmod)).symm

namespace Tree

variable {levels : ℕ} {d d' : AddressSpaceDispatch} {lab : ℕ → ℕ × ℕ} {leaf : ℕ → Prop}

theorem ne_nil (hT : Tree levels d lab leaf) {k} (hk : k < d.nodes.length) : k ≠ physMapNodeNil :=
  (hk.trans_le hT.le_nil).ne

/-- Two trees give the same result for a page if they agree on the entries that cover it, or
at least on the results from those that differ. -/
theorem walk_congr (hT : Tree levels d lab leaf) {idx}
    (h : ∀ r e, d.entry r = some e → InSpan (refSpan levels lab r) idx →
      d'.entry r = some e ∨ ∃ e', d'.entry r = some e' ∧
        physPageWalk d'.nodes (refSpan levels lab r).1 e' idx =
          physPageWalk d.nodes (refSpan levels lab r).1 e idx)
    (l : ℕ) {r e} (he : d.entry r = some e) (hl : (refSpan levels lab r).1 = l)
    (hs : InSpan (refSpan levels lab r) idx) : ∃ e', d'.entry r = some e' ∧
      physPageWalk d'.nodes l e' idx = physPageWalk d.nodes l e idx := by
  induction l using Nat.strong_induction_on generalizing r e with
  | _ l ih =>
    rcases h r e he hs with h' | ⟨e', he', hw⟩
    · refine ⟨e, h', ?_⟩
      cases hT.ok he with
      | leaf => rw [physPageWalk_leaf, physPageWalk_leaf]
      | nil h0 =>
        have hpos : 1 ≤ l := one_le_iff_ne_zero.2 (hl ▸ h0)
        rw [physPageWalk_nil _ hpos one_ne_zero, physPageWalk_nil _ hpos one_ne_zero]
      | @node k hk h1 h2 =>
        obtain rfl : l = (lab k).1 + 1 := hl.symm.trans h1
        have hin : InSpan ((lab k).1 + 1, (lab k).2) idx := by
          rw [h2, ← h1]
          exact hs
        obtain ⟨c, hc⟩ := entry_node_of_lt hk (l2Index idx (lab k).1)
        obtain ⟨c', hc', hw⟩ := ih _ (lt_succ_self _) hc rfl (inSpan_l2Index hin)
        rw [physPageWalk_node one_ne_zero (hT.ne_nil hk) hc,
          physPageWalk_node one_ne_zero (hT.ne_nil hk) hc', hw]
    · exact ⟨e', he', by rwa [hl] at hw⟩

end Tree

/-! ## What a write changes -/

/-- From `d` to `d'`, entries at level `l` or below were written, and only the results for
the pages from `lo` up to `hi` changed. -/
structure Wrote (levels : ℕ) (leaf : ℕ → Prop) (l lo hi : ℕ) (d : AddressSpaceDispatch)
    (lab : ℕ → ℕ × ℕ) (d' : AddressSpaceDispatch) (lab' : ℕ → ℕ × ℕ) : Prop where
  tree : Tree levels d' lab' leaf
  frame : d' = { d with physMap := d'.physMap, nodes := d'.nodes }
  length_le : d.nodes.length ≤ d'.nodes.length
  lab_eq : ∀ k < d.nodes.length, lab' k = lab k
  above : ∀ {r e}, d.entry r = some e → l < (refSpan levels lab r).1 → d'.entry r = some e
  keep : ∀ {idx r e}, ¬(lo ≤ idx ∧ idx < hi) → d.entry r = some e →
    InSpan (refSpan levels lab r) idx → ∃ e', d'.entry r = some e' ∧
      physPageWalk d'.nodes (refSpan levels lab r).1 e' idx =
        physPageWalk d.nodes (refSpan levels lab r).1 e idx

theorem refSpan_congr (levels : ℕ) {lab'} (h : ∀ k < d.nodes.length, lab' k = lab k)
    {r e} (he : d.entry r = some e) : refSpan levels lab' r = refSpan levels lab r := by
  cases r with
  | physMap => rfl
  | node k i => simp only [refSpan, h k (lt_of_entry_node he)]

namespace Wrote

variable {levels l l' lo mid hi : ℕ} {leaf : ℕ → Prop} {d d₁ d₂ : AddressSpaceDispatch}
  {lab lab₁ lab₂ : ℕ → ℕ × ℕ}

theorem refl (hT : Tree levels d lab leaf) : Wrote levels leaf l lo lo d lab d lab where
  tree := hT
  frame := rfl
  length_le := le_rfl
  lab_eq := fun _ _ => rfl
  above := fun he _ => he
  keep := fun _ he _ => ⟨_, he, rfl⟩

theorem trans (h₁ : Wrote levels leaf l lo mid d lab d₁ lab₁)
    (h₂ : Wrote levels leaf l mid hi d₁ lab₁ d₂ lab₂) (hlo : lo ≤ mid) (hhi : mid ≤ hi) :
    Wrote levels leaf l lo hi d lab d₂ lab₂ where
  tree := h₂.tree
  frame := by
    rw [h₂.frame, h₁.frame]
  length_le := h₁.length_le.trans h₂.length_le
  lab_eq := fun k hk => by rw [h₂.lab_eq k (hk.trans_le h₁.length_le), h₁.lab_eq k hk]
  above := fun he hl => by
    refine h₂.above (h₁.above he hl) ?_
    rwa [refSpan_congr levels h₁.lab_eq he]
  keep := fun hidx he hs => by
    obtain ⟨e₁, he₁, hw₁⟩ := h₁.keep (fun h => hidx ⟨h.1, h.2.trans_le hhi⟩) he hs
    have hr := refSpan_congr levels h₁.lab_eq he
    rw [← hr] at hs
    obtain ⟨e₂, he₂, hw₂⟩ := h₂.keep (fun h => hidx ⟨hlo.trans h.1, h.2⟩) he₁ hs
    exact ⟨e₂, he₂, by rw [← hw₁, ← hr, hw₂]⟩

theorem mono (h : Wrote levels leaf l lo hi d lab d₁ lab₁) (hl : l ≤ l') :
    Wrote levels leaf l' lo hi d lab d₁ lab₁ :=
  { h with above := fun he hlt => h.above he (hl.trans_lt hlt) }

theorem keep_node {k q idx c} (h : Wrote levels leaf l lo hi d lab d₁ lab₁)
    (hlab : lab k = (l, q)) (hidx : ¬(lo ≤ idx ∧ idx < hi)) (hin : InSpan (l + 1, q) idx)
    (hc : d.entry (.node k (l2Index idx l)) = some c) :
    ∃ c', d₁.entry (.node k (l2Index idx l)) = some c' ∧
      physPageWalk d₁.nodes l c' idx = physPageWalk d.nodes l c idx := by
  have hsp : refSpan levels lab (.node k (l2Index idx l)) = (l, q * l2Size + l2Index idx l) := by
    rw [refSpan, hlab]
  have hkeep := h.keep hidx hc (hsp ▸ inSpan_l2Index hin)
  rwa [hsp] at hkeep

end Wrote

section

variable {levels : ℕ} {leaf : ℕ → Prop} {d : AddressSpaceDispatch} {lab : ℕ → ℕ × ℕ}

variable {lp : EntryRef} {l q n k : ℕ} {d₁ : AddressSpaceDispatch} {lab₁ : ℕ → ℕ × ℕ}

/-- Writing a leaf changes the results for the pages of the entry. -/
theorem wrote_setEntry (hT : Tree levels d lab leaf) {e} (he : d.entry lp = some e)
    (hsp : refSpan levels lab lp = (l, q)) (hn : leaf n) (hn0 : n ≠ 0) :
    Wrote levels leaf l (q * l2Size ^ l) ((q + 1) * l2Size ^ l) d lab
      (d.setEntry lp ⟨0, n⟩) lab where
  tree := by
    refine ⟨by simpa using hT.le_nil, fun {r c} hc => ?_⟩
    by_cases hr : r = lp
    · subst hr
      rw [entry_setEntry_self he, some.injEq] at hc
      subst hc
      exact .leaf hn fun _ => hn0
    · rw [entry_setEntry_ne hr] at hc
      rw [length_setEntry]
      exact hT.ok hc
  frame := setEntry_frame d lp _
  length_le := by simp
  lab_eq := fun _ _ => rfl
  above := fun {r c} hc hl => by
    rw [entry_setEntry_ne, hc]
    rintro rfl
    rw [hsp] at hl
    exact lt_irrefl _ hl
  keep := fun {idx r c} hidx hc hs => by
    refine hT.walk_congr (fun r' e' he' hs' => .inl ?_) _ hc rfl hs
    rw [entry_setEntry_ne, he']
    rintro rfl
    rw [hsp] at hs'
    exact hidx (inSpan_iff.1 hs')

/-- The entries of a new node at level `l`. -/
def blankEntry (l : ℕ) : PhysPageEntry := if l = 0 then ⟨0, 0⟩ else ⟨1, physMapNodeNil⟩

theorem physPageWalk_blankEntry (nodes : List PhysNode) (l idx : ℕ) :
    physPageWalk nodes l (blankEntry l) idx = some 0 := by
  unfold blankEntry
  split_ifs with hl
  · exact physPageWalk_leaf _ _ _ _
  · exact physPageWalk_nil _ (one_le_iff_ne_zero.2 hl) one_ne_zero _

theorem physMapNodeAlloc_ok (ha : d.nodes.length ≠ d.nodesNbAlloc)
    (hb : d.nodes.length ≠ physMapNodeNil) :
    physMapNodeAlloc d = .ok ({ d with nodes := d.nodes ++
      [Vector.replicate l2Size ⟨1, physMapNodeNil⟩] }, d.nodes.length) := by
  unfold physMapNodeAlloc
  simp only [dispatchAssert_pos ha, dispatchAssert_pos hb]
  rfl

/-- What `physPageNode` does at an empty entry. -/
theorem physPageNode_nil (he : d.entry lp = some ⟨1, physMapNodeNil⟩) (l : ℕ)
    (ha : d.nodes.length < d.nodesNbAlloc) (hb : d.nodes.length < physMapNodeNil) :
    ∃ d', physPageNode l d lp = .ok (d', d.nodes.length) ∧
      d' = { d with physMap := d'.physMap, nodes := d'.nodes } ∧
      d'.nodes.length = d.nodes.length + 1 ∧ d'.entry lp = some ⟨1, d.nodes.length⟩ ∧
      (∀ i, d'.entry (.node d.nodes.length i) = some (blankEntry l)) ∧
      ∀ r c, r ≠ lp → d.entry r = some c → d'.entry r = some c := by
  obtain ⟨d₁, hd₁⟩ : ∃ d₁, d₁ = ({ d with nodes := d.nodes ++
    [Vector.replicate l2Size ⟨1, physMapNodeNil⟩] } : AddressSpaceDispatch).setEntry lp
      ⟨1, d.nodes.length⟩ := ⟨_, rfl⟩
  obtain ⟨d₂, hd₂⟩ : ∃ d₂, d₂ = if l = 0 then
      { d₁ with nodes := d₁.nodes.set d.nodes.length (Vector.replicate l2Size ⟨0, 0⟩) }
    else d₁ := ⟨_, rfl⟩
  have hlen₁ : d₁.nodes.length = d.nodes.length + 1 := by simp [hd₁]
  have happ : ∀ {r c}, d.entry r = some c → ({ d with nodes := d.nodes ++
      [Vector.replicate l2Size ⟨1, physMapNodeNil⟩] } : AddressSpaceDispatch).entry r = some c := by
    intro r c hc
    cases r with
    | physMap => exact hc
    | node k i =>
      have hk := lt_of_entry_node hc
      rw [← hc]
      simp only [entry, List.getElem?_append_left hk]
  have hset : ∀ {r}, (∀ i, r ≠ .node d.nodes.length i) → d₂.entry r = d₁.entry r := by
    intro r hr
    rw [hd₂]
    split_ifs
    · cases r with
      | physMap => rfl
      | node k i =>
        have hk : d.nodes.length ≠ k := fun hk => hr i (by rw [hk])
        simp [entry, List.getElem?_set_ne hk]
    · rfl
  have hne : ∀ {r c}, d.entry r = some c → ∀ i, r ≠ .node d.nodes.length i := by
    rintro r c hc i rfl
    exact lt_irrefl _ (lt_of_entry_node hc)
  refine ⟨d₂, ?_, ?_, ?_, ?_, fun i => ?_, fun r c hr hc => ?_⟩
  · have hmod : d.nodes.length % 2 ^ 26 = d.nodes.length :=
      mod_eq_of_lt (hb.trans (by decide))
    rw [physPageNode, he, orFail_some, except_ok_bind, if_pos ⟨one_ne_zero, rfl⟩,
      physMapNodeAlloc_ok ha.ne hb.ne, except_ok_bind, hd₂, hd₁]
    simp only [hmod]
    rfl
  · rw [hd₂, hd₁]
    split_ifs <;> cases lp <;> rfl
  · rw [hd₂]
    split_ifs <;> simp [hlen₁]
  · rw [hset (hne he), hd₁, entry_setEntry_self (happ he)]
  · rw [hd₂, blankEntry]
    split_ifs with hl
    · simp [entry, hlen₁]
    · rw [hd₁, entry_setEntry_ne (hne he i).symm]
      simp [entry]
  · rw [hset (hne hc), hd₁, entry_setEntry_ne hr, happ hc]

/-- The node for an entry that is not a leaf : nothing is changed by adding an empty one. -/
theorem physPageNode_spec (hT : Tree levels d lab leaf) (h0 : leaf 0) {e}
    (he : d.entry lp = some e) (hsp : refSpan levels lab lp = (l + 1, q)) (hskip : e.skip ≠ 0)
    (ha : d.nodes.length < d.nodesNbAlloc) (hb : d.nodes.length < physMapNodeNil) :
    ∃ d' lab' k, physPageNode l d lp = .ok (d', k) ∧
      Wrote levels leaf (l + 1) 0 0 d lab d' lab' ∧ d'.nodes.length ≤ d.nodes.length + 1 ∧
      d'.entry lp = some ⟨1, k⟩ ∧ k < d'.nodes.length ∧ lab' k = (l, q) := by
  have hok := hT.ok he
  rw [hsp] at hok
  cases hok with
  | leaf => exact absurd rfl hskip
  | @node k hk h1 h2 =>
    refine ⟨d, lab, k, ?_, Wrote.refl hT, by omega, he, hk, ?_⟩
    · unfold physPageNode
      rw [he]
      show (if _ then _ else _) = _
      rw [if_neg fun h => hT.ne_nil hk h.2]
      rfl
    · exact Prod.ext (by omega) h2
  | nil =>
    obtain ⟨d', hd', hframe, hlen, hlp, hnew, hold⟩ := physPageNode_nil he l ha hb
    obtain ⟨lab', hlab'⟩ := @exists_eq _ (Function.update lab d.nodes.length (l, q))
    have hlab : ∀ k < d.nodes.length, lab' k = lab k := fun k hk => by
      rw [hlab', Function.update_of_ne hk.ne]
    have hlabn : lab' d.nodes.length = (l, q) := by rw [hlab', Function.update_self]
    refine ⟨d', lab', _, hd', ?_, hlen.le, hlp, by omega, hlabn⟩
    refine ⟨⟨by omega, fun {r c} hc => ?_⟩, hframe, by omega, hlab, fun {r c} hc hl => ?_,
      fun {idx r c} _ hc hs => ?_⟩
    · by_cases hr : r = lp
      · subst hr
        rw [hlp, some.injEq] at hc
        subst hc
        rw [refSpan_congr levels hlab he, hsp]
        exact .node (by omega) (by rw [hlabn]) (by rw [hlabn])
      · have hcase : (∃ i, r = .node d.nodes.length i) ∨ ∃ c', d.entry r = some c' := by
          cases r with
          | physMap => exact .inr ⟨_, rfl⟩
          | node k i =>
            have hk := lt_of_entry_node hc
            rcases Nat.lt_succ_iff_lt_or_eq.1 (hk.trans_eq hlen) with hk | rfl
            · exact .inr (entry_node_of_lt hk i)
            · exact .inl ⟨i, rfl⟩
        rcases hcase with ⟨i, rfl⟩ | ⟨c', hc'⟩
        · rw [hnew, some.injEq] at hc
          subst hc
          rw [refSpan, hlabn, blankEntry]
          split_ifs with hl
          · exact .leaf h0 fun h => absurd hl h
          · exact .nil hl
        · rw [hold r c' hr hc', some.injEq] at hc
          subst hc
          rw [refSpan_congr levels hlab hc']
          exact (hT.ok hc').mono (by omega) hlab fun _ h => h
    · refine hold r c ?_ hc
      rintro rfl
      rw [hsp] at hl
      exact lt_irrefl _ hl
    · refine hT.walk_congr (fun r' e' he' hs' => ?_) _ hc rfl hs
      by_cases hr : r' = lp
      · subst hr
        rw [he, some.injEq] at he'
        subst he'
        refine .inr ⟨_, hlp, ?_⟩
        rw [hsp, physPageWalk_node one_ne_zero hb.ne (hnew _), physPageWalk_blankEntry,
          physPageWalk_nil _ (le_add_left 1 l) one_ne_zero]
      · exact .inl (hold r' e' hr he')

/-! ## Setting a range of pages -/

/-- There are `c` more nodes to allocate. -/
def Room (d : AddressSpaceDispatch) (c : ℕ) : Prop :=
  d.nodes.length + c ≤ d.nodesNbAlloc ∧ d.nodes.length + c ≤ physMapNodeNil

theorem Room.of_wrote {lo hi c c'} (h : Room d c) (hw : Wrote levels leaf l lo hi d lab d₁ lab₁)
    (hlen : d₁.nodes.length + c' ≤ d.nodes.length + c) : Room d₁ c' := by
  have halloc : d₁.nodesNbAlloc = d.nodesNbAlloc := by rw [hw.frame]
  exact ⟨halloc ▸ hlen.trans h.1, hlen.trans h.2⟩

/-- The number of nodes that setting `nb` pages from `index` on may add below a node at level
`l` : one for each lower level, for each end of the range that is not on a boundary. -/
def loopCost (l q index nb : ℕ) : ℕ :=
  (if index % l2Size ^ l = 0 then 0 else l) +
    if index + nb < (q + 1) * l2Size ^ (l + 1) then l else 0

/-- The same below an entry at level `l + 1`, with the node of the entry. -/
def setCost (l q index nb : ℕ) : ℕ :=
  1 + (if index % l2Size ^ (l + 1) = 0 then 0 else l) +
    if index + nb < (q + 1) * l2Size ^ (l + 1) then l else 0

/-- The end of the part of a range that lies in the pages of an entry at level `l`. -/
def setEnd (l q index nb : ℕ) : ℕ := min (index + nb) ((q + 1) * l2Size ^ l)

theorem loopCost_le_setCost (l q index nb : ℕ) :
    1 + loopCost l q index nb ≤ setCost l q index nb := by
  have h : index % l2Size ^ (l + 1) = 0 → index % l2Size ^ l = 0 := fun h =>
    mod_eq_zero_of_dvd ((pow_dvd_pow _ l.le_succ).trans (dvd_of_mod_eq_zero h))
  unfold loopCost setCost
  split_ifs <;> omega

/-- The pages of an entry end no later than those of its node. -/
theorem entry_end_le (l q : ℕ) (i : Fin l2Size) :
    (q * l2Size + i + 1) * l2Size ^ l ≤ (q + 1) * l2Size ^ (l + 1) := by
  calc (q * l2Size + i + 1) * l2Size ^ l ≤ ((q + 1) * l2Size) * l2Size ^ l :=
        mul_le_mul_right _ (by rw [add_mul, one_mul]; omega)
    _ = (q + 1) * l2Size ^ (l + 1) := by ring

theorem setCost_add_loopCost {index nb : ℕ} {i : Fin l2Size}
    (hin : InSpan (l + 1, q * l2Size + i) index) (hpart : ¬(index % l2Size ^ (l + 1) = 0 ∧ l2Size ^
      (l + 1) ≤ nb)) :
    setCost l (q * l2Size + i) index nb ≤ loopCost (l + 1) q index nb ∧
      ((q * l2Size + i + 1) * l2Size ^ (l + 1) < index + nb →
        setCost l (q * l2Size + i) index nb +
          loopCost (l + 1) q ((q * l2Size + i + 1) * l2Size ^ (l + 1))
            (index + nb - (q * l2Size + i + 1) * l2Size ^ (l + 1)) ≤
          loopCost (l + 1) q index nb) := by
  obtain ⟨h1, h2⟩ := inSpan_iff.1 hin
  have hend := entry_end_le (l + 1) q i
  have hmul : ((q * l2Size + i + 1) * l2Size ^ (l + 1)) % l2Size ^ (l + 1) = 0 :=
    mul_mod_left _ _
  have hal := hin.eq_of_mod
  unfold setCost loopCost
  rw [add_mul _ 1, one_mul] at h2 hend hmul ⊢
  refine ⟨?_, fun hlt => ?_⟩
  · split_ifs <;> omega
  · split_ifs <;> omega

/-- `set` enters the leaf `n` for the pages of a range that the given entry covers. -/
def SetsPages (levels : ℕ) (leaf : ℕ → Prop) (n l : ℕ)
    (set : AddressSpaceDispatch → EntryRef → ℕ → ℕ →
      Except DispatchError (AddressSpaceDispatch × ℕ × ℕ)) : Prop :=
  ∀ {d lab lp e q index nb}, Tree levels d lab leaf → d.entry lp = some e →
    refSpan levels lab lp = (l + 1, q) → InSpan (l + 1, q) index → 0 < nb →
    index + nb < 2 ^ 64 →
    (∀ idx, index ≤ idx → idx < index + nb → InSpan (l + 1, q) idx →
      physPageWalk d.nodes (l + 1) e idx = some 0) →
    Room d (setCost l q index nb) →
    ∃ d' lab' e', set d lp index nb =
        .ok (d', setEnd (l + 1) q index nb, index + nb - setEnd (l + 1) q index nb) ∧
      Wrote levels leaf (l + 1) index (setEnd (l + 1) q index nb) d lab d' lab' ∧
      d'.nodes.length ≤ d.nodes.length + setCost l q index nb ∧ d'.entry lp = some e' ∧
      ∀ idx, index ≤ idx → idx < setEnd (l + 1) q index nb →
        physPageWalk d'.nodes (l + 1) e' idx = some n

theorem physPageSetEntries_zero (n l k : ℕ) (descend : AddressSpaceDispatch → EntryRef → ℕ → ℕ →
      Except DispatchError (AddressSpaceDispatch × ℕ × ℕ)) (left : ℕ)
    (d : AddressSpaceDispatch) (index : ℕ) :
    physPageSetEntries n l k descend left d index 0 = .ok (d, index, 0) := by
  cases left with
  | zero => rfl
  | succ left => rw [physPageSetEntries, if_pos rfl]

/-- What the loop over the entries of node `k`, from position `l2Size - left` on, does. -/
def LoopDone (levels : ℕ) (leaf : ℕ → Prop) (n l q k index nb : ℕ) (d : AddressSpaceDispatch)
    (lab : ℕ → ℕ × ℕ) (res : Except DispatchError (AddressSpaceDispatch × ℕ × ℕ)) : Prop :=
  ∃ d' lab', res = .ok (d', setEnd (l + 1) q index nb, index + nb - setEnd (l + 1) q index nb) ∧
    Wrote levels leaf l index (setEnd (l + 1) q index nb) d lab d' lab' ∧
    d'.nodes.length ≤ d.nodes.length + loopCost l q index nb ∧
    ∀ idx, index ≤ idx → idx < setEnd (l + 1) q index nb →
      ∃ c, d'.entry (.node k (l2Index idx l)) = some c ∧ physPageWalk d'.nodes l c idx = some n

theorem LoopDone.nothing {index nb} (hT : Tree levels d lab leaf)
    (hend : setEnd (l + 1) q index nb = index) :
    LoopDone levels leaf n l q k index nb d lab (.ok (d, index, nb)) := by
  refine ⟨d, lab, ?_, ?_, by omega, fun idx h1 h2 => by omega⟩
  · rw [hend, Nat.add_sub_cancel_left]
  · rw [hend]
    exact Wrote.refl hT

/-- The first rounds of the loop, up to `mid`, and the rest. -/
theorem LoopDone.of_rest {index mid nb res} (hrest : LoopDone levels leaf n l q
      k mid (index + nb - mid) d₁ lab₁ res) (hw : Wrote levels leaf l index mid d lab d₁ lab₁)
    (hk : k < d.nodes.length) (hlab : lab k = (l, q)) (hlo : index ≤ mid) (hnb : mid ≤ index + nb)
    (hhi : mid ≤ (q + 1) * l2Size ^ (l + 1)) (hset : ∀ idx, index ≤ idx → idx < mid → InSpan (l + 1,
      q) idx ∧ ∃ c, d₁.entry (.node k (l2Index idx l)) = some c ∧ physPageWalk d₁.nodes l c idx =
      some n) (hcost : d₁.nodes.length + loopCost l q mid (index + nb - mid) ≤ d.nodes.length +
      loopCost l q index nb) : LoopDone levels leaf n l q k index nb d lab res := by
  obtain ⟨d', lab', hres, hw', hlen, hset'⟩ := hrest
  have hsum : mid + (index + nb - mid) = index + nb := by omega
  have hend : setEnd (l + 1) q mid (index + nb - mid) = setEnd (l + 1) q index nb := by
    rw [setEnd, setEnd, hsum]
  rw [hsum, hend] at hres
  rw [hend] at hw' hset'
  have hmid : mid ≤ setEnd (l + 1) q index nb := le_min hnb hhi
  refine ⟨d', lab', hres, hw.trans hw' hlo hmid, by omega, fun idx h1 h2 => ?_⟩
  rcases lt_or_ge idx mid with h3 | h3
  · obtain ⟨hin, c, hc, hv⟩ := hset idx h1 h3
    have hlab₁ : lab₁ k = (l, q) := by rw [hw.lab_eq k hk, hlab]
    obtain ⟨c', hc', hv'⟩ := hw'.keep_node hlab₁ (fun h => absurd h.1 (not_le.2 h3)) hin hc
    exact ⟨c', hc', hv'.trans hv⟩
  · exact hset' idx h3 h2

/-- The walk gives the unassigned section on the pages of node `k` from `lo` up to `hi`. -/
def Free (d : AddressSpaceDispatch) (l q k lo hi : ℕ) : Prop :=
  ∀ idx, lo ≤ idx → idx < hi → InSpan (l + 1, q) idx →
    ∀ c, d.entry (.node k (l2Index idx l)) = some c → physPageWalk d.nodes l c idx = some 0

theorem Free.of_wrote {lo mid hi} (h : Free d l q k lo hi)
    (hw : Wrote levels leaf l lo mid d lab d₁ lab₁) (hk : k < d.nodes.length)
    (hlab : lab k = (l, q)) (hmid : lo ≤ mid) : Free d₁ l q k mid hi := by
  intro idx h1 h2 hin c hc
  obtain ⟨c₀, hc₀⟩ := entry_node_of_lt hk (l2Index idx l)
  obtain ⟨c', hc', hv⟩ := hw.keep_node hlab (fun h => absurd h1 (not_le.2 h.2)) hin hc₀
  rw [hc, some.injEq] at hc'
  subst hc'
  rw [hv, h idx (hmid.trans h1) h2 hin c₀ hc₀]

/-- The loop over the entries of one node. -/
theorem physPageSetEntries_spec (hn : leaf n) (hn0 : n ≠ 0)
    {descend : AddressSpaceDispatch → EntryRef → ℕ → ℕ →
      Except DispatchError (AddressSpaceDispatch × ℕ × ℕ)}
    (hdesc : ∀ l', l = l' + 1 → SetsPages levels leaf n l' descend) :
    ∀ (left : ℕ) {d : AddressSpaceDispatch} {lab : ℕ → ℕ × ℕ} {index nb : ℕ},
      left ≤ l2Size → Tree levels d lab leaf → k < d.nodes.length → lab k = (l, q) →
      InSpan (l, q * l2Size + (l2Size - left)) index →
      (left = 0 → index = (q + 1) * l2Size ^ (l + 1)) → index + nb < 2 ^ 64 →
      Free d l q k index (index + nb) → Room d (loopCost l q index nb) →
      LoopDone levels leaf n l q k index nb d lab
        (physPageSetEntries n l k descend left d index nb) := by
  intro left
  induction left with
  | zero =>
    intro d lab index nb _ hT _ _ _ hend _ _ _
    refine .nothing hT ?_
    rw [setEnd, ← hend rfl]
    omega
  | succ left ih =>
    intro d lab index nb hleft hT hk hlab hin _ hlt hfree hroom
    obtain ⟨i, hi⟩ := @exists_eq (Fin l2Size) (⟨l2Size - 1 - left, by unfold l2Size; omega⟩)
    have hiv : l2Size - (left + 1) = i := by
      rw [hi]
      show l2Size - (left + 1) = l2Size - 1 - left
      omega
    have hnext : q * l2Size + (l2Size - left) = q * l2Size + i + 1 := by omega
    rw [hiv] at hin
    obtain ⟨h1, h2⟩ := inSpan_iff.1 hin
    have hE := entry_end_le l q i
    have hsp : refSpan levels lab (.node k i) = (l, q * l2Size + i) := by rw [refSpan, hlab]
    obtain ⟨c, hc⟩ := entry_node_of_lt hk i
    have hup : ∀ {idx}, InSpan (l, q * l2Size + i) idx → InSpan (l + 1, q) idx := by
      intro idx h
      have h' : idx / l2Size ^ l = q * l2Size + i := h
      show idx / l2Size ^ (l + 1) = q
      rw [pow_succ, ← Nat.div_div_eq_div_mul, h', mul_comm, Nat.mul_add_div (by norm_num),
        div_eq_of_lt i.isLt, add_zero]
    obtain ⟨mid, hmid⟩ := @exists_eq _ ((q * l2Size + i + 1) * l2Size ^ l)
    have hend : left = 0 → mid = (q + 1) * l2Size ^ (l + 1) := by
      intro h
      rw [hmid, ← hnext, h, Nat.sub_zero]
      ring
    have hstart : InSpan (l, q * l2Size + (l2Size - left)) mid := by
      rw [hnext, hmid, inSpan_iff]
      exact ⟨le_rfl, mul_lt_mul_of_pos_right (lt_succ_self _) (by positivity)⟩
    rw [← hmid] at h2 hE
    -- the rounds after the one for entry `i`
    have hgo : ∀ {d₁ lab₁}, Wrote levels leaf l index mid d lab d₁ lab₁ → mid ≤ index + nb →
        (∀ idx, index ≤ idx → idx < mid → InSpan (l + 1, q) idx ∧ ∃ c,
          d₁.entry (.node k (l2Index idx l)) = some c ∧ physPageWalk d₁.nodes l c idx = some n) →
        d₁.nodes.length + loopCost l q mid (index + nb - mid) ≤
          d.nodes.length + loopCost l q index nb →
        LoopDone levels leaf n l q k index nb d lab
          (physPageSetEntries n l k descend left d₁ mid (index + nb - mid)) := by
      intro d₁ lab₁ hw hnb hset hcost
      have hsum : mid + (index + nb - mid) = index + nb := by omega
      have hfree' := hfree.of_wrote hw hk hlab (by omega)
      rw [← hsum] at hfree'
      exact .of_rest (ih (by omega) hw.tree (hk.trans_le hw.length_le)
        (by rw [hw.lab_eq k hk, hlab]) hstart hend (by omega) hfree' (hroom.of_wrote hw hcost))
        hw hk hlab (by omega) hnb hE hset hcost
    rw [physPageSetEntries]
    simp only [two_pow_mul_nine, ← hi]
    rw [← two_pow_mul_nine, and_two_pow_sub_one_eq_mod, two_pow_mul_nine]
    split_ifs with hnb hwhole
    · refine .nothing hT ?_
      rw [setEnd]
      omega
    · obtain ⟨hal, hstep⟩ := hwhole
      have hidx := hin.eq_of_mod hal
      have hw := wrote_setEntry hT hc hsp hn hn0
      rw [← hidx, ← hmid] at hw
      have hmid' : index + l2Size ^ l = mid := by
        rw [hmid, add_mul _ 1, one_mul, hidx]
      have hrest : nb - l2Size ^ l = index + nb - mid := by omega
      have hsum : mid + (index + nb - mid) = index + nb := by omega
      have hcost : loopCost l q mid (index + nb - mid) ≤ loopCost l q index nb := by
        unfold loopCost
        rw [hsum, if_pos hal, if_pos (by rw [hmid, mul_mod_left])]
      rw [mod_eq_of_lt (show index + l2Size ^ l < 2 ^ 64 by omega), hmid', hrest]
      refine hgo hw (by omega) (fun idx h3 h4 => ?_) (by simpa using hcost)
      have hs : InSpan (l, q * l2Size + i) idx := inSpan_iff.2 ⟨by omega, by omega⟩
      rw [l2Index_eq hs]
      exact ⟨hup hs, _, entry_setEntry_self hc _, physPageWalk_leaf _ _ _ _⟩
    · cases l with
      | zero => exact absurd ⟨mod_one _, one_le_iff_ne_zero.2 hnb⟩ hwhole
      | succ l =>
        obtain ⟨hcost, hcost'⟩ := setCost_add_loopCost hin hwhole
        rw [← hmid] at hcost'
        obtain ⟨d₁, lab₁, e', hres, hw, hlen, he', hset⟩ := hdesc l rfl hT hc hsp hin
          (pos_of_ne_zero hnb) hlt
          (fun idx h3 h4 h5 => hfree idx h3 h4 (hup h5) c (by rw [l2Index_eq h5, hc]))
          ⟨(Nat.add_le_add_left hcost _).trans hroom.1, (Nat.add_le_add_left hcost _).trans hroom.2⟩
        rw [hres, except_ok_bind]
        dsimp only
        rw [setEnd, ← hmid] at hw hset ⊢
        have hin₁ : ∀ idx, index ≤ idx → idx < mid → InSpan (l + 1 + 1, q) idx ∧
            (idx < index + nb → ∃ c, d₁.entry (.node k (l2Index idx (l + 1))) = some c ∧
              physPageWalk d₁.nodes (l + 1) c idx = some n) := by
          intro idx h3 h4
          have hs : InSpan (l + 1, q * l2Size + i) idx := inSpan_iff.2 ⟨by omega, by omega⟩
          rw [l2Index_eq hs]
          exact ⟨hup hs, fun h5 => ⟨e', he', hset idx h3 (lt_min h5 h4)⟩⟩
        rcases lt_or_ge mid (index + nb) with hlt' | hge
        · rw [min_eq_right hlt'.le] at hw ⊢
          exact hgo hw hlt'.le
            (fun idx h3 h4 => ⟨(hin₁ idx h3 h4).1, (hin₁ idx h3 h4).2 (h4.trans hlt')⟩) (by omega)
        · rw [min_eq_left hge] at hw ⊢
          have hend' : setEnd (l + 1 + 1) q index nb = index + nb := by
            rw [setEnd]
            omega
          rw [Nat.sub_self, physPageSetEntries_zero]
          refine ⟨d₁, lab₁, by rw [hend', Nat.sub_self], by rwa [hend'], by omega, ?_⟩
          intro idx h3 h4
          rw [hend'] at h4
          exact (hin₁ idx h3 (h4.trans_le hge)).2 h4

/-- The two cases of `phys_page_set_level` differ in what the loop calls only. -/
theorem physPageSetLevel_eq (n l : ℕ) : ∃ descend,
    (∀ l', l = l' + 1 → descend = physPageSetLevel n l') ∧
    ∀ d lp index nb, physPageSetLevel n l d lp index nb =
      physPageNode l d lp >>= fun r =>
        physPageSetEntries n l r.2 descend (l2Size - l2Index index l) r.1 index nb := by
  cases l with
  | zero => exact ⟨_, fun _ h => absurd h (succ_ne_zero _).symm, fun _ _ _ _ => rfl⟩
  | succ l =>
    refine ⟨physPageSetLevel n l, fun l' h => ?_, fun _ _ _ _ => rfl⟩
    rw [succ_injective h]

/-- `phys_page_set_level` enters a leaf, at every level. -/
theorem setsPages_physPageSetLevel (h0 : leaf 0) (hn : leaf n) (hn0 : n ≠ 0) (l : ℕ) :
    SetsPages levels leaf n l (physPageSetLevel n l) := by
  induction l using Nat.strong_induction_on with
  | _ l ih =>
    intro d lab lp e q index nb hT he hsp hin hnb hlt hfree hroom
    obtain ⟨descend, hdesc, heq⟩ := physPageSetLevel_eq n l
    have hskip : e.skip ≠ 0 := by
      have hzero := hfree index le_rfl (by omega) hin
      have hok := hT.ok he
      rw [hsp] at hok
      cases hok with
      | leaf _ h =>
        rw [physPageWalk_leaf, some.injEq] at hzero
        exact absurd hzero (h (succ_ne_zero l))
      | nil | node => exact one_ne_zero
    have hcost := loopCost_le_setCost l q index nb
    obtain ⟨d₁, lab₁, k, hnode, hw₁, hlen₁, hlp, hk, hlab⟩ := physPageNode_spec hT h0 he hsp
      hskip (by have := hroom.1; omega) (by have := hroom.2; omega)
    have hw₁' : Wrote levels leaf (l + 1) index index d lab d₁ lab₁ :=
      { hw₁ with keep := fun _ => hw₁.keep fun h => absurd h.2 (not_lt_zero _) }
    have hkn := hw₁.tree.ne_nil hk
    have hwalk : ∀ {idx c}, d₁.entry (.node k (l2Index idx l)) = some c →
        physPageWalk d₁.nodes (l + 1) ⟨1, k⟩ idx = physPageWalk d₁.nodes l c idx :=
      fun hc => physPageWalk_node one_ne_zero hkn hc
    have hfree₁ : Free d₁ l q k index (index + nb) := by
      intro idx h1 h2 hs c hc
      obtain ⟨e', he', hv⟩ := hw₁'.keep (fun h => by omega) he (hsp ▸ hs)
      rw [hlp, some.injEq] at he'
      subst he'
      rw [hsp] at hv
      rw [← hwalk hc, hv, hfree idx h1 h2 hs]
    have hpos : InSpan (l, q * l2Size + (l2Size - (l2Size - l2Index index l))) index := by
      have hle := (l2Index index l).isLt.le
      rw [Nat.sub_sub_self hle]
      exact inSpan_l2Index hin
    have hdesc' : ∀ l', l = l' + 1 → SetsPages levels leaf n l' descend := fun l' hl' => by
      rw [hdesc l' hl']
      exact ih l' (by omega)
    obtain ⟨d', lab', hres, hw', hlen', hset⟩ := physPageSetEntries_spec hn hn0 hdesc'
      (l2Size - l2Index index l)
      (sub_le _ _) hw₁.tree hk hlab hpos
      (fun h => absurd h (sub_ne_zero_of_lt (l2Index index l).isLt)) hlt hfree₁
      (hroom.of_wrote hw₁ (by omega))
    have hend : index ≤ setEnd (l + 1) q index nb := by
      obtain ⟨h1, h2⟩ := inSpan_iff.1 hin
      exact le_min (le_add_right _ _) h2.le
    have hlp' : d'.entry lp = some ⟨1, k⟩ := hw'.above hlp (by
      rw [refSpan_congr levels hw₁.lab_eq he, hsp]
      exact lt_succ_self l)
    refine ⟨d', lab', ⟨1, k⟩, ?_, hw₁'.trans (hw'.mono l.le_succ) le_rfl hend, by omega, hlp',
      fun idx h1 h2 => ?_⟩
    · rw [heq, hnode, except_ok_bind]
      exact hres
    · obtain ⟨c, hc, hv⟩ := hset idx h1 h2
      rw [physPageWalk_node one_ne_zero hkn hc, hv]

end

/-- The page numbers fit the levels of the tree. -/
theorem TargetPage.pages_le (t : TargetPage) : 2 ^ (64 - t.bits) ≤ l2Size ^ t.l2Levels := by
  rw [show l2Size = 2 ^ 9 from rfl, ← pow_mul]
  refine Nat.pow_le_pow_right two_pos ?_
  unfold TargetPage.l2Levels
  omega

theorem setCost_le (l q index nb : ℕ) : setCost l q index nb ≤ 2 * l + 1 := by
  unfold setCost
  split_ifs <;> omega

/-- `phys_page_set` on a range of unassigned pages. -/
theorem physPageSet_spec {t leaf nb n}
    (hT : Tree t.l2Levels d lab leaf) (h0 : leaf 0) (hn : leaf n) (hn0 : n ≠ 0) (hnb : 0 < nb)
    (hle : index + nb ≤ 2 ^ (64 - t.bits)) (hfree : ∀ idx, index ≤ idx → idx < index + nb →
      physPageWalk d.nodes t.l2Levels d.physMap idx = some 0)
    (hroom : d.nodes.length + 3 * t.l2Levels ≤ physMapNodeNil) :
    ∃ d' lab', physPageSet t d index nb n = .ok d' ∧ Tree t.l2Levels d' lab' leaf ∧
      d' = { d with physMap := d'.physMap, nodes := d'.nodes, nodesNbAlloc := d'.nodesNbAlloc } ∧
      d'.nodes.length ≤ d.nodes.length + 3 * t.l2Levels ∧
      ∀ idx, idx < 2 ^ (64 - t.bits) →
        physPageWalk d'.nodes t.l2Levels d'.physMap idx =
          if index ≤ idx ∧ idx < index + nb then some n
          else physPageWalk d.nodes t.l2Levels d.physMap idx := by
  obtain ⟨d₀, hd₀⟩ := @exists_eq _ (physMapNodeReserve d (3 * t.l2Levels))
  have hframe₀ : d₀ = { d with nodesNbAlloc := d₀.nodesNbAlloc } := by
    rw [hd₀, physMapNodeReserve]
    split_ifs <;> rfl
  have halloc : d.nodes.length + 3 * t.l2Levels ≤ d₀.nodesNbAlloc := by
    rw [hd₀, physMapNodeReserve]
    split_ifs with h
    · exact le_max_right _ _
    · omega
  have hnodes : d₀.nodes = d.nodes := by rw [hframe₀]
  have hroot : d₀.physMap = d.physMap := by rw [hframe₀]
  have hentry : ∀ r, d₀.entry r = d.entry r := by
    intro r
    rw [hframe₀]
    cases r <;> rfl
  have hT₀ : Tree t.l2Levels d₀ lab leaf := by
    refine ⟨by rw [hnodes]; exact hT.le_nil, fun {r e} he => ?_⟩
    rw [hnodes]
    rw [hentry] at he
    exact hT.ok he
  obtain ⟨l, hl⟩ : ∃ l, t.l2Levels = l + 1 := ⟨_, rfl⟩
  have hpages := t.pages_le
  have hbits : 2 ^ (64 - t.bits) < 2 ^ 64 :=
    Nat.pow_lt_pow_right one_lt_two (by have := t.pos; omega)
  have hspan : ∀ idx, idx < 2 ^ (64 - t.bits) → InSpan (l + 1, 0) idx := fun idx h => by
    rw [inSpan_iff, ← hl]
    omega
  have hcost := setCost_le l 0 index nb
  obtain ⟨d', lab', e', hres, hw, hlen, he', hset⟩ := setsPages_physPageSetLevel h0 hn hn0 l hT₀
    (show d₀.entry .physMap = some d₀.physMap from rfl) (by rw [refSpan, hl])
    (hspan index (by omega)) hnb (by omega)
    (fun idx h1 h2 _ => by rw [hnodes, hroot, ← hl]; exact hfree idx h1 h2)
    ⟨by rw [hnodes]; omega, by rw [hnodes]; omega⟩
  have hend : setEnd (l + 1) 0 index nb = index + nb := by
    rw [setEnd, ← hl]
    omega
  rw [hend] at hw hset
  cases he'
  rw [hnodes] at hlen
  refine ⟨d', lab', ?_, hw.tree, ?_, by omega, fun idx hidx => ?_⟩
  · rw [physPageSet, ← hd₀]
    simp only [hl, Nat.add_sub_cancel, hres, except_ok_bind]
    rfl
  · have hf := hw.frame
    rw [hframe₀] at hf
    rw [hf]
  · split_ifs with h
    · rw [hl, hset idx h.1 h.2]
    · obtain ⟨e, he, hv⟩ := hw.keep h (show d₀.entry .physMap = some d₀.physMap from rfl)
        (by rw [refSpan, hl]; exact hspan idx hidx)
      cases he
      rw [hnodes, hroot] at hv
      exact hv

end QemuArm
