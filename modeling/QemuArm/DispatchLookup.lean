import QemuArm.DispatchCompact
import QemuArm.DispatchPieces

/-!
# The dispatch tree agrees with the sections it was built from

`Built` is the state of a tree in which some pieces of sections have been registered : every
page is unassigned, has a piece that covers it, or has a `subpage_t` whose table is right for
each of its bytes. Registering a piece keeps it (`registerMultipage_spec`,
`registerSubpage_spec`), as long as there is room in the table of sections, and a lookup in
the compacted tree finds the piece that contains the address (`Built.lookup`).

`dispatchUpdate_lookup` is the statement for one update of the listener with any list of
disjoint sections.
-/

namespace QemuArm

open List Option Finset PhysSection Nat

/-- The section that every address has at first. -/
def unassignedSection : PhysSection where
  mr := .ioMemUnassigned
  addressSpace := addressSpaceMemory
  offsetWithinRegion := 0
  size := .two64
  offsetWithinAddressSpace := 0
  readonly := false

/-- The section of the `k`-th `subpage_t`. -/
def subpageSection (t : TargetPage) (as : AsPtr) (base : Hwaddr) (k : ℕ) : PhysSection where
  mr := .subpage k
  addressSpace := as
  offsetWithinRegion := 0
  size := .make64 (BitVec.ofNat 64 t.size)
  offsetWithinAddressSpace := base
  readonly := false

variable {s : PhysSection}

/-- The test at the end of `phys_page_find`. -/
theorem PhysSection.Proper.covers_iff (hs : s.Proper) (a : Hwaddr) :
    (s.size.hi ≠ 0 ∨ rangeCoversByte s.offsetWithinAddressSpace s.size.lo a) ↔
      s.Contains a.toNat := by
  have hpos := hs.pos
  have hle := hs.le
  have hsize := hs.size_eq
  unfold Contains
  rcases (show s.len ≤ 2 ^ 64 by omega).lt_or_eq with h | h
  · rw [hsize, Int128.ofInt_natCast_of_lt h, rangeCoversByte, Bool.and_eq_true,
      decide_eq_true_eq, decide_eq_true_eq, BitVec.le_def, BitVec.le_def]
    have hlast : (s.offsetWithinAddressSpace + BitVec.ofNat 64 s.len - 1).toNat =
        s.first + s.len - 1 := by
      rw [BitVec.toNat_sub, BitVec.toNat_add, BitVec.toNat_ofNat, mod_eq_of_lt h]
      unfold first at *
      have h1 : (1 : BitVec 64).toNat = 1 := rfl
      omega
    simp only [ne_eq, not_true_eq_false, false_or]
    unfold first at *
    omega
  · have hhi : s.size.hi ≠ 0 := by
      rw [hsize, h]
      decide
    simp only [hhi, ne_eq, not_false_eq_true, true_or, true_iff]
    omega

section

variable {t : TargetPage} {d : AddressSpaceDispatch}

/-- `phys_page_find` takes the section at the end of the walk if it has the address. -/
theorem physPageFind_eq {w a}
    (hw : physPageWalk d.nodes t.l2Levels d.physMap (a.toNat / t.size) = some w)
    (hs : d.sections[w]? = some s) (hp : s.Proper) :
    (s.Contains a.toNat → physPageFind t d d.physMap a = some s) ∧
    (¬s.Contains a.toNat → physPageFind t d d.physMap a = d.sections[physSectionUnassigned]?) := by
  rw [physPageFind, t.toNat_shiftRight, hw]
  simp only [bind_eq_bind, bind_some, hs]
  exact ⟨fun ha => if_pos ((hp.covers_iff a).2 ha), fun ha => if_neg (mt (hp.covers_iff a).1 ha)⟩

theorem proper_unassignedSection : unassignedSection.Proper := by
  constructor <;> decide

theorem contains_unassignedSection (a : Hwaddr) : unassignedSection.Contains a.toNat :=
  ⟨zero_le _, a.isLt⟩

/-! ## The invariant -/

/-- The section number `n` is right for byte `a`. -/
def ByteOK (d : AddressSpaceDispatch) (P : List Piece) (a n : ℕ) : Prop :=
  (∃ p ∈ P, d.sections[n]? = some p.sec ∧ p.sec.Contains a) ∨ n = 0 ∧ ∀ p ∈ P, ¬p.sec.Contains a

/-- Section `w` is the one of the `k`-th `subpage_t`, which is for page `q`. -/
structure SubpageOK (t : TargetPage) (d : AddressSpaceDispatch) (P : List Piece) (q w k : ℕ) :
    Prop where
  sec : ∃ as base, d.sections[w]? = some (subpageSection t as base k) ∧ base.toNat = q * t.size
  table : ∃ sub, d.subpages[k]? = some sub ∧ sub.base.toNat = q * t.size ∧
    sub.subSection.length = t.size ∧
    ∀ o < t.size, ∃ n, sub.subSection[o]? = some n ∧ ByteOK d P (q * t.size + o) n

/-- What the walk for page `q` may end at, when the pages with a `subpage_t` are `S`. -/
inductive PageOK (t : TargetPage) (d : AddressSpaceDispatch) (P : List Piece) (S : Finset ℕ)
    (q : ℕ) : ℕ → Prop
  | empty : q ∉ S → (∀ p ∈ P, ∀ a, a / t.size = q → ¬p.sec.Contains a) → PageOK t d P S q 0
  | whole {w : ℕ} {p : Piece} : w ≠ 0 → p ∈ P → d.sections[w]? = some p.sec →
      (∀ a, a / t.size = q → p.sec.Contains a) → PageOK t d P S q w
  | subpage {w k : ℕ} : w ≠ 0 → q ∈ S → SubpageOK t d P q w k → PageOK t d P S q w

/-- The leaves of the tree are sections whose bytes are all in pages with that leaf. -/
def Covered (t : TargetPage) (d : AddressSpaceDispatch) (leaf : ℕ → Prop) : Prop :=
  ∀ {m}, leaf m → m ≠ 0 → ∃ s, d.sections[m]? = some s ∧ s.Proper ∧
    ∀ a, s.Contains a → physPageWalk d.nodes t.l2Levels d.physMap (a / t.size) = some m

/-- A tree in which the pieces `P` have been registered. -/
structure Built (t : TargetPage) (d : AddressSpaceDispatch) (P : List Piece) (S : Finset ℕ)
    (lab : ℕ → ℕ × ℕ) (leaf : ℕ → Prop) : Prop where
  tree : Tree t.l2Levels d lab leaf
  leaf_zero : leaf 0
  covered : Covered t d leaf
  zero : d.sections[0]? = some unassignedSection
  length : d.sections.length = 4 + P.length + S.card
  length_le : d.sections.length ≤ t.size
  subpages : d.subpages.length = S.card
  nodes : d.nodes.length ≤ 3 * t.l2Levels * d.sections.length
  page : ∀ q < 2 ^ (64 - t.bits), ∃ w,
    physPageWalk d.nodes t.l2Levels d.physMap q = some w ∧ PageOK t d P S q w

variable {P : List Piece} {S : Finset ℕ} {lab : ℕ → ℕ × ℕ} {leaf : ℕ → Prop}

theorem Built.leaf_lt (hB : Built t d P S lab leaf) {m} (hm : leaf m) : m < d.sections.length := by
  by_cases h0 : m = 0
  · have := hB.length
    omega
  · obtain ⟨s, hs, -⟩ := hB.covered hm h0
    exact (List.getElem?_eq_some_iff.1 hs).1

/-- The nodes for one more section fit. -/
theorem Built.room (hB : Built t d P S lab leaf) :
    d.nodes.length + 3 * t.l2Levels ≤ physMapNodeNil := by
  have hlev : t.l2Levels ≤ 7 := by
    have := t.pos
    unfold TargetPage.l2Levels
    omega
  have hlen : d.sections.length ≤ 2 ^ 16 := hB.length_le.trans t.size_le
  have hnodes := hB.nodes
  have hmul : 3 * t.l2Levels * d.sections.length ≤ 3 * 7 * 2 ^ 16 :=
    Nat.mul_le_mul (by omega) hlen
  have hnil : physMapNodeNil = 2 ^ 26 - 1 := rfl
  omega

/-! ## Entering a section -/

theorem TargetPage.pages_mul_size (t : TargetPage) : 2 ^ (64 - t.bits) * t.size = 2 ^ 64 := by
  rw [TargetPage.size, ← pow_add]
  congr 1
  have := t.le
  omega

theorem TargetPage.div_size_lt (t : TargetPage) {a : ℕ} (ha : a < 2 ^ 64) :
    a / t.size < 2 ^ (64 - t.bits) := by
  rwa [div_lt_iff_lt_mul t.size_pos, t.pages_mul_size]

theorem TargetPage.page_add (t : TargetPage) (q : ℕ) {o : ℕ} (ho : o < t.size) :
    (q * t.size + o) / t.size = q := by
  rw [mul_comm, mul_add_div t.size_pos, div_eq_of_lt ho, add_zero]

theorem physSectionAdd_ok (hlt : d.sections.length < t.size) (s : PhysSection) :
    ∃ alloc, physSectionAdd t d s =
      .ok ({ d with sections := d.sections ++ [s], sectionsNbAlloc := alloc },
        d.sections.length) := by
  have hmod : d.sections.length % 2 ^ 16 = d.sections.length :=
    mod_eq_of_lt (hlt.trans_le t.size_le)
  rw [physSectionAdd, dispatchAssert_pos hlt, except_ok_bind, hmod]
  exact ⟨_, rfl⟩

theorem physSectionAdd_error (hge : t.size ≤ d.sections.length) (s : PhysSection) :
    physSectionAdd t d s = .error .tooManySections := by
  rw [physSectionAdd, dispatchAssert, if_neg (not_lt.2 hge)]
  rfl

theorem getElem?_append_of_some {α : Type} {l : List α} {n : ℕ} {a : α} (h : l[n]? = some a)
    (l' : List α) : (l ++ l')[n]? = some a := by
  rw [List.getElem?_append_left (List.getElem?_eq_some_iff.1 h).1, h]

/-- A new last section, entered for a range of unassigned pages that holds all its bytes. -/
theorem Built.enter (hB : Built t d P S lab leaf) (hs : s.Proper) {index nb : ℕ} (hnb : 0 < nb)
    (hle : index + nb ≤ 2 ^ (64 - t.bits)) (hfree : ∀ q, index ≤ q → q < index + nb →
      physPageWalk d.nodes t.l2Levels d.physMap q = some 0)
    (hcont : ∀ a, s.Contains a → index ≤ a / t.size ∧ a / t.size < index + nb)
    (d₁ : AddressSpaceDispatch) (hroot : d₁.physMap = d.physMap) (hnodes : d₁.nodes = d.nodes)
    (hsec : d₁.sections = d.sections ++ [s]) :
    ∃ d₂ lab' leaf', physPageSet t d₁ index nb d.sections.length = .ok d₂ ∧
      d₂ = { d₁ with physMap := d₂.physMap, nodes := d₂.nodes, nodesNbAlloc := d₂.nodesNbAlloc } ∧
      Tree t.l2Levels d₂ lab' leaf' ∧ leaf' 0 ∧ Covered t d₂ leaf' ∧
      d₂.nodes.length ≤ 3 * t.l2Levels * (d.sections.length + 1) ∧
      ∀ q < 2 ^ (64 - t.bits), physPageWalk d₂.nodes t.l2Levels d₂.physMap q =
        if index ≤ q ∧ q < index + nb then some d.sections.length
        else physPageWalk d.nodes t.l2Levels d.physMap q := by
  have hn0 : d.sections.length ≠ 0 := by
    have := hB.length
    omega
  obtain ⟨leaf', hleaf'⟩ := @exists_eq (ℕ → Prop) (fun m => leaf m ∨ m = d.sections.length)
  have hentry : ∀ r, d₁.entry r = d.entry r := by
    intro r
    cases r <;> simp [AddressSpaceDispatch.entry, hroot, hnodes]
  have hT₁ : Tree t.l2Levels d₁ lab leaf' := by
    refine ⟨by rw [hnodes]; exact hB.tree.le_nil, fun {r e} he => ?_⟩
    rw [hentry] at he
    rw [hnodes, hleaf']
    exact (hB.tree.ok he).mono le_rfl (fun _ _ => rfl) fun _ => .inl
  obtain ⟨d₂, lab', hres, hT₂, hframe, hlen, hwalk⟩ := physPageSet_spec hT₁
    (by rw [hleaf']; exact .inl hB.leaf_zero) (by rw [hleaf']; exact .inr rfl) hn0 hnb hle
    (by rw [hnodes, hroot]; exact hfree) (by rw [hnodes]; exact hB.room)
  rw [hnodes, hroot] at hwalk
  rw [hnodes] at hlen
  refine ⟨d₂, lab', leaf', hres, hframe, hT₂, by rw [hleaf']; exact .inl hB.leaf_zero, ?_, ?_,
    hwalk⟩
  · intro m hm hm0
    have hsec₂ : d₂.sections = d.sections ++ [s] := by rw [hframe, hsec]
    have hpage : ∀ {s' : PhysSection} {a : ℕ}, s'.Proper → s'.Contains a →
        a / t.size < 2 ^ (64 - t.bits) := by
      intro s' a hs' ha
      have h1 := hs'.le
      have h2 := ha.2
      exact t.div_size_lt (by omega)
    rw [hleaf'] at hm
    rw [hsec₂]
    rcases hm with hm | rfl
    · obtain ⟨s', hs', hp, hc⟩ := hB.covered hm hm0
      refine ⟨s', getElem?_append_of_some hs' _, hp, fun a ha => ?_⟩
      rw [hwalk _ (hpage hp ha), if_neg, hc a ha]
      rintro ⟨h1, h2⟩
      have := hfree _ h1 h2
      rw [hc a ha, some.injEq] at this
      exact hm0 this
    · refine ⟨s, by simp, hs, fun a ha => ?_⟩
      rw [hwalk _ (hpage hs ha), if_pos (hcont a ha)]
  · have := hB.nodes
    rw [mul_succ]
    omega

theorem ByteOK.mono {d' P' a n} (h : ByteOK d P a n)
    (hsec : ∀ {m : ℕ} {s : PhysSection}, d.sections[m]? = some s → d'.sections[m]? = some s)
    (hP : ∀ p ∈ P, p ∈ P') (hnew : ∀ p ∈ P', p ∈ P ∨ ¬p.sec.Contains a) : ByteOK d' P' a n := by
  rcases h with ⟨p, hp, hs, ha⟩ | ⟨hn, hno⟩
  · exact .inl ⟨p, hP p hp, hsec hs, ha⟩
  · exact .inr ⟨hn, fun p hp => (hnew p hp).elim (hno p) id⟩

variable {q : ℕ}

/-- A page that a change leaves alone. -/
theorem PageOK.mono {d' P' S' w} (h : PageOK t d P S q w)
    (hsec : ∀ {m : ℕ} {s : PhysSection}, d.sections[m]? = some s → d'.sections[m]? = some s)
    (hsub : ∀ {k : ℕ} {sub : SubpageT}, d.subpages[k]? = some sub →
      sub.base.toNat = q * t.size → d'.subpages[k]? = some sub) (hP : ∀ p ∈ P, p ∈ P')
    (hnew : ∀ p ∈ P', p ∈ P ∨ ∀ a, a / t.size = q → ¬p.sec.Contains a) (hS : q ∈ S' ↔ q ∈ S) :
    PageOK t d' P' S' q w := by
  cases h with
  | empty hq hno =>
    exact .empty (mt hS.1 hq) fun p hp a ha => (hnew p hp).elim (fun h => hno p h a ha) (· a ha)
  | whole hw hp hs hall => exact .whole hw (hP _ hp) (hsec hs) hall
  | subpage hw hq hsp =>
    obtain ⟨⟨as, base, hs, hbase⟩, sub, hsub', hsb, hlen, htab⟩ := hsp
    refine .subpage hw (hS.2 hq) ⟨⟨as, base, hsec hs, hbase⟩, sub, hsub hsub' hsb, hsb, hlen,
      fun o ho => ?_⟩
    obtain ⟨n, hn, hb⟩ := htab o ho
    exact ⟨n, hn, hb.mono hsec hP fun p hp => (hnew p hp).imp_right (· _ (t.page_add q ho))⟩

/-- A page in which no byte of a registered piece lies is unassigned. -/
theorem Built.walk_eq_zero (hB : Built t d P S lab leaf)
    (hS : ∀ q ∈ S, ∃ p ∈ P, p.sec.Proper ∧ p.sec.first / t.size = q) (hq : q < 2 ^ (64 - t.bits))
    (hno : ∀ p ∈ P, ∀ a, a / t.size = q → ¬p.sec.Contains a) :
    physPageWalk d.nodes t.l2Levels d.physMap q = some 0 := by
  obtain ⟨w, hw, hok⟩ := hB.page q hq
  rw [hw]
  cases hok with
  | empty => rfl
  | whole _ hp _ hall =>
    have hdiv : q * t.size / t.size = q := Nat.mul_div_cancel q t.size_pos
    exact absurd (hall _ hdiv) (hno _ hp _ hdiv)
  | subpage _ hqS =>
    obtain ⟨p, hp, hpr, hdiv⟩ := hS q hqS
    exact absurd ⟨le_rfl, Nat.lt_add_of_pos_right hpr.pos⟩ (hno p hp _ hdiv)

variable {p : Piece}

/-- `register_multipage`. -/
theorem registerMultipage_spec (hB : Built t d P S lab leaf) (hp : p.OK t)
    (hwhole : p.whole = true) (hdisj : ∀ p' ∈ P, ∀ a, p'.sec.Contains a → ¬p.sec.Contains a)
    (hS : ∀ q ∈ S, ∃ p ∈ P, p.sec.Proper ∧ p.sec.first / t.size = q)
    (hlt : d.sections.length < t.size) :
    ∃ d' lab' leaf', registerMultipage t d p.sec = .ok d' ∧ Built t d' (P ++ [p]) S lab' leaf' := by
  have hpos := t.size_pos
  have hle := hp.proper.le
  have hlen := hp.proper.pos
  obtain ⟨hfirst, hmul⟩ := hp.aligned hwhole
  obtain ⟨i, hi⟩ := dvd_of_mod_eq_zero hfirst
  obtain ⟨n, hn⟩ := dvd_of_mod_eq_zero hmul
  have hidx : p.sec.first / t.size = i := by rw [hi, Nat.mul_div_cancel_left _ hpos]
  have hnum : p.sec.len / t.size = n := by rw [hn, Nat.mul_div_cancel_left _ hpos]
  have hn0 : 0 < n := by
    rcases Nat.eq_zero_or_pos n with h | h
    · rw [h, mul_zero] at hn
      omega
    · exact h
  have hpages := t.pages_mul_size
  have hin : i + n ≤ 2 ^ (64 - t.bits) := by
    refine le_of_mul_le_mul_left ?_ hpos
    rw [mul_add, ← hi, ← hn, mul_comm t.size, hpages]
    exact hle
  have hcont : ∀ a, p.sec.Contains a ↔ i ≤ a / t.size ∧ a / t.size < i + n := by
    intro a
    rw [Contains, hi, hn, ← mul_add, le_div_iff_mul_le hpos,
      div_lt_iff_lt_mul hpos, mul_comm t.size, mul_comm t.size]
  obtain ⟨alloc, hadd⟩ := physSectionAdd_ok hlt p.sec
  have hfree : ∀ q, i ≤ q → q < i + n →
      physPageWalk d.nodes t.l2Levels d.physMap q = some 0 := fun q h1 h2 =>
    hB.walk_eq_zero hS (by omega) fun p' hp' a ha hc =>
      hdisj p' hp' a hc ((hcont a).2 (by rw [ha]; exact ⟨h1, h2⟩))
  have hn64 : n < 2 ^ 64 := by
    have : 2 ^ (64 - t.bits) < 2 ^ 64 :=
      Nat.pow_lt_pow_right one_lt_two (by have := t.pos; omega)
    omega
  have hnp : (p.sec.size.rshift t.bits).get64 = some (BitVec.ofNat 64 n) := by
    rw [hp.proper.size_eq, t.rshift_bits (by omega), hnum, Int128.get64_ofInt_natCast hn64]
  have hnat : (BitVec.ofNat 64 n).toNat = n := by
    rw [BitVec.toNat_ofNat, mod_eq_of_lt hn64]
  have hne : BitVec.ofNat 64 n ≠ 0 := fun h => by
    rw [h] at hnat
    exact hn0.ne hnat
  obtain ⟨d', lab', leaf', hres, hframe, hT, h0, hcov, hnodes, hwalk⟩ := hB.enter hp.proper hn0 hin
    hfree (fun a ha => (hcont a).1 ha)
    { d with sections := d.sections ++ [p.sec], sectionsNbAlloc := alloc } rfl rfl rfl
  have hsec : d'.sections = d.sections ++ [p.sec] := by rw [hframe]
  have hsub : d'.subpages = d.subpages := by rw [hframe]
  refine ⟨d', lab', leaf', ?_, hT, h0, hcov, ?_, ?_, ?_, ?_, ?_, fun q hq => ?_⟩
  · rw [registerMultipage, hadd, except_ok_bind]
    dsimp only
    rw [hnp, orFail_some, except_ok_bind, dispatchAssert_pos hne, except_ok_bind,
      t.toNat_shiftRight, hnat]
    show physPageSet t _ (p.sec.first / t.size) n _ = _
    rw [hidx, hres]
  · rw [hsec]
    exact getElem?_append_of_some hB.zero _
  · rw [hsec, length_append, length_append, hB.length]
    simp only [length_singleton]
    omega
  · rw [hsec, length_append]
    exact hlt
  · rw [hsub, hB.subpages]
  · rw [hsec, length_append]
    exact hnodes
  · rw [hwalk q hq]
    split_ifs with hr
    · have hw0 : d.sections.length ≠ 0 := by
        have := hB.length
        omega
      refine ⟨_, rfl, .whole hw0 (List.mem_append_right _ (List.mem_singleton_self p))
        (by rw [hsec]; simp) fun a ha => ?_⟩
      rwa [hcont, ha]
    · obtain ⟨w, hw, hok⟩ := hB.page q hq
      refine ⟨w, hw, hok.mono (fun h => by rw [hsec]; exact getElem?_append_of_some h _)
        (fun h _ => by rwa [hsub]) (fun _ => mem_append_left _) (fun p' hp' => ?_) Iff.rfl⟩
      rcases mem_append.1 hp' with h | h
      · exact .inl h
      · refine .inr fun a ha hc => hr ?_
        rw [List.mem_singleton.1 h, hcont, ha] at hc
        exact hc

/-! ## Subpages -/

theorem length_subpageFill (sec : ℕ) : ∀ n idx table,
    (subpageFill sec n idx table).length = table.length
  | 0, _, _ => rfl
  | n + 1, idx, table => by
    rw [subpageFill, length_subpageFill sec n, length_set]

theorem getElem?_subpageFill (sec : ℕ) : ∀ n idx table o,
    o < table.length → (subpageFill sec n idx table)[o]? =
      if idx ≤ o ∧ o < idx + n then some sec else table[o]?
  | 0, idx, table, o, _ => by
    rw [subpageFill, if_neg (by omega)]
  | n + 1, idx, table, o, ho => by
    rw [subpageFill, getElem?_subpageFill sec n _ _ _ (by rwa [length_set]), getElem?_set]
    by_cases h : idx = o
    · rw [if_neg (by omega), if_pos h, if_pos (by omega), if_pos (by omega)]
    · rw [if_neg h]
      by_cases h' : idx + 1 ≤ o ∧ o < idx + 1 + n
      · rw [if_pos h', if_pos (by omega)]
      · rw [if_neg h', if_neg (by omega)]

/-- `subpage_register` on bytes of the page. -/
theorem subpageRegister_eq {first last} (hle : first.toNat ≤ last.toNat)
    (hlt : last.toNat < t.size) (table : List ℕ) (sec : ℕ) :
    subpageRegister t table first last sec =
      subpageFill sec (last.toNat + 1 - first.toNat) first.toNat table := by
  have hsize := t.size_le
  rw [subpageRegister, mod_eq_of_lt (show first.toNat < 2 ^ 32 by omega),
    mod_eq_of_lt (show last.toNat < 2 ^ 32 by omega)]
  exact if_neg (by omega)

theorem length_subSection_subpageInit (as : AsPtr) (base : Hwaddr) :
    (subpageInit t as base).subSection.length = t.size := by
  rw [subpageInit, subpageRegister]
  split_ifs
  · exact length_replicate
  · rw [length_subpageFill, length_replicate]

theorem getElem?_subSection_subpageInit (as : AsPtr) (base : Hwaddr) {o} (ho : o < t.size) :
    (subpageInit t as base).subSection[o]? = some 0 := by
  have hlast : (BitVec.ofNat 64 (t.size - 1)).toNat = t.size - 1 := by
    have := t.size_lt
    rw [BitVec.toNat_ofNat, mod_eq_of_lt (by omega)]
  rw [subpageInit]
  rw [subpageRegister_eq (by simp) (by omega), getElem?_subpageFill _ _ _ _ _ (by simpa using ho),
    hlast]
  exact if_pos ⟨zero_le _, by simp; omega⟩

variable {base : Hwaddr}

theorem proper_subpageSection (hq : q < 2 ^ (64 - t.bits)) (hbase : base.toNat = q * t.size)
    (as : AsPtr) (k : ℕ) :
    (subpageSection t as base k).Proper ∧
      ∀ a, (subpageSection t as base k).Contains a ↔ a / t.size = q := by
  have hfirst : (subpageSection t as base k).first = q * t.size := hbase
  have hlen : (subpageSection t as base k).len = t.size := by
    rw [len, subpageSection, t.make64_size,
      Int128.toInt_ofInt (Int128.inRange_natCast t.size_lt.le)]
    exact Int.toNat_natCast _
  refine ⟨⟨?_, ?_⟩, fun a => ?_⟩
  · rw [hlen]
    exact t.size_pos
  · rw [hfirst, hlen, ← t.pages_mul_size, ← succ_mul]
    exact mul_le_mul_right _ hq
  · rw [Contains, hfirst, hlen, Nat.div_eq_iff t.size_pos]
    have := t.size_pos
    omega

section

variable (hB : Built t d P S lab leaf)
include hB

/-- What `register_subpage` finds at the page of a piece that is not covered yet. -/
theorem Built.existing {a} (hq : q < 2 ^ (64 - t.bits))
    (hbase : base.toNat = q * t.size) (ha : a / t.size = q) (hno : ∀ p ∈ P, ¬p.sec.Contains a) :
    (physPageWalk d.nodes t.l2Levels d.physMap q = some 0 ∧ q ∉ S ∧
      (∀ p ∈ P, ∀ a, a / t.size = q → ¬p.sec.Contains a) ∧
      physPageFind t d d.physMap base = some unassignedSection) ∨
    ∃ w k as base', physPageWalk d.nodes t.l2Levels d.physMap q = some w ∧ w ≠ 0 ∧ q ∈ S ∧
      SubpageOK t d P q w k ∧
      physPageFind t d d.physMap base = some (subpageSection t as base' k) := by
  obtain ⟨w, hw, hok⟩ := hB.page q hq
  have hdiv : base.toNat / t.size = q := by rw [hbase, Nat.mul_div_cancel _ t.size_pos]
  cases hok with
  | empty hqS hall =>
    refine .inl ⟨hw, hqS, hall, ?_⟩
    exact (physPageFind_eq (by rw [hdiv, hw]) hB.zero proper_unassignedSection).1
      (contains_unassignedSection base)
  | whole _ hp _ hall => exact absurd (hall a ha) (hno _ hp)
  | @subpage w k hw0 hqS hsp =>
    obtain ⟨⟨as, base', hs, hbase'⟩, -⟩ := id hsp
    obtain ⟨hpr, hcont⟩ := proper_subpageSection hq hbase' as k
    exact .inr ⟨w, k, as, base', hw, hw0, hqS, hsp,
      (physPageFind_eq (by rw [hdiv, hw]) hs hpr).1 ((hcont _).2 hdiv)⟩

/-- After `subpageAt` the page has a `subpage_t`. -/
theorem subpageAt_spec {a : ℕ} (hq : q < 2 ^ (64 - t.bits))
    (hbase : base.toNat = q * t.size) (ha : a / t.size = q) (hno : ∀ p ∈ P, ¬p.sec.Contains a) :
    ∃ existing, physPageFind t d d.physMap base = some existing ∧
      (4 + P.length + (insert q S).card ≤ t.size →
        ∃ d₁ k lab' leaf' w, subpageAt t d base existing = .ok (d₁, k) ∧
          Built t d₁ P (insert q S) lab' leaf' ∧
          physPageWalk d₁.nodes t.l2Levels d₁.physMap q = some w ∧ w ≠ 0 ∧
          SubpageOK t d₁ P q w k) ∧
      (t.size < 4 + P.length + (insert q S).card →
        subpageAt t d base existing = .error .tooManySections) := by
  rcases hB.existing hq hbase ha hno with ⟨hw, hqS, hall, hfind⟩ |
    ⟨w, k, as, base', hw, hw0, hqS, hsp, hfind⟩
  · obtain ⟨d₀, hd₀⟩ : ∃ d₀ : AddressSpaceDispatch,
      d₀ = { d with subpages := d.subpages ++ [subpageInit t d.as base] } := ⟨_, rfl⟩
    have hsec₀ : d₀.sections = d.sections := by rw [hd₀]
    have hlen := hB.length
    have heq : subpageAt t d base unassignedSection =
        physSectionAdd t d₀ (subpageSection t d.as base d.subpages.length) >>= fun r =>
          physPageSet t r.1 (base >>> t.bits).toNat 1 r.2 >>= fun d' =>
            .ok (d', d.subpages.length) := by
      rw [hd₀]
      rfl
    refine ⟨_, hfind, fun hroom => ?_, fun hfull => ?_⟩
    · rw [card_insert_of_notMem hqS] at hroom
      obtain ⟨alloc, hadd⟩ := @physSectionAdd_ok t d₀ (by rw [hsec₀]; omega)
        (subpageSection t d.as base d.subpages.length)
      rw [heq, hadd, except_ok_bind, hsec₀, t.toNat_shiftRight, hbase,
        Nat.mul_div_cancel _ t.size_pos]
      obtain ⟨hpr, hcont⟩ := proper_subpageSection hq hbase d.as d.subpages.length
      obtain ⟨d₁, hd₁⟩ : ∃ d₁ : AddressSpaceDispatch, d₁ = { d₀ with
        sections := d.sections ++ [subpageSection t d.as base d.subpages.length]
        sectionsNbAlloc := alloc } := ⟨_, rfl⟩
      obtain ⟨d₂, lab', leaf', hres, hframe, hT, h0, hcov, hnodes, hwalk⟩ := hB.enter hpr one_pos
        (show q + 1 ≤ 2 ^ (64 - t.bits) from hq)
        (fun q' h1 h2 => by rw [show q' = q by omega, hw])
        (fun a ha => by rw [(hcont a).1 ha]; omega) d₁ (by rw [hd₁, hd₀]) (by rw [hd₁, hd₀])
        (by rw [hd₁])
      have hsec : d₂.sections =
          d.sections ++ [subpageSection t d.as base d.subpages.length] := by rw [hframe, hd₁]
      have hsub : d₂.subpages = d.subpages ++ [subpageInit t d.as base] := by
        rw [hframe, hd₁, hd₀]
      have hkeep : ∀ {m : ℕ} {s : PhysSection}, d.sections[m]? = some s →
          d₂.sections[m]? = some s := fun h => by
        rw [hsec]
        exact getElem?_append_of_some h _
      have hsp : SubpageOK t d₂ P q d.sections.length d.subpages.length := by
        refine ⟨⟨d.as, base, by rw [hsec]; simp, hbase⟩, subpageInit t d.as base,
          by rw [hsub]; simp, hbase, length_subSection_subpageInit _ _, fun o ho => ?_⟩
        exact ⟨0, getElem?_subSection_subpageInit _ _ ho,
          .inr ⟨rfl, fun p hp => hall p hp _ (t.page_add q ho)⟩⟩
      have hwq : physPageWalk d₂.nodes t.l2Levels d₂.physMap q = some d.sections.length := by
        rw [hwalk q hq, if_pos ⟨le_rfl, lt_succ_self q⟩]
      refine ⟨d₂, d.subpages.length, lab', leaf', d.sections.length, ?_, ?_, hwq, by omega, hsp⟩
      · rw [← hd₁, hres]
        rfl
      · refine ⟨hT, h0, hcov, hkeep hB.zero, ?_, ?_, ?_, ?_, fun q' hq' => ?_⟩
        · rw [hsec, length_append, length_singleton, card_insert_of_notMem hqS]
          omega
        · rw [hsec, length_append, length_singleton]
          omega
        · rw [hsub, length_append, length_singleton, card_insert_of_notMem hqS, hB.subpages]
        · rw [hsec, length_append, length_singleton]
          exact hnodes
        · by_cases h : q' = q
          · rw [h]
            exact ⟨_, hwq, .subpage (by omega) (mem_insert_self _ _) hsp⟩
          · obtain ⟨w, hw', hok⟩ := hB.page q' hq'
            refine ⟨w, ?_, hok.mono hkeep (fun hs _ => ?_) (fun _ h => h) (fun _ h => .inl h) ?_⟩
            · rw [hwalk q' hq', if_neg (by omega), hw']
            · rw [hsub]
              exact getElem?_append_of_some hs _
            · rw [mem_insert, or_iff_right h]
    · rw [card_insert_of_notMem hqS] at hfull
      rw [heq, physSectionAdd_error (by rw [hsec₀]; omega)]
      rfl
  · rw [insert_eq_of_mem hqS]
    have hlen := hB.length
    have hle := hB.length_le
    exact ⟨_, hfind, fun _ => ⟨d, k, lab, leaf, w, rfl, hB, hw, hw0, hsp⟩, fun hfull => by omega⟩

/-- A piece inside a page that has a `subpage_t`. -/
theorem Built.register (hp : p.OK t) (hsubp : p.whole = false)
    (hdisj : ∀ p' ∈ P, ∀ a, p'.sec.Contains a → ¬p.sec.Contains a)
    (hlt : d.sections.length < t.size) {w k : ℕ} (hfirst : p.sec.first / t.size = q)
    (hwq : physPageWalk d.nodes t.l2Levels d.physMap q = some w) (hw0 : w ≠ 0)
    (hsp : SubpageOK t d P q w k) (hqS : q ∈ S) (alloc : ℕ) {first last : Hwaddr}
    (hf : first.toNat = p.sec.first % t.size)
    (hl : last.toNat + 1 = p.sec.first % t.size + p.sec.len) :
    Built t { d with
      sections := d.sections ++ [p.sec]
      sectionsNbAlloc := alloc
      subpages := d.subpages.modify k fun sub =>
        { sub with
          subSection := subpageRegister t sub.subSection first last d.sections.length } }
      (P ++ [p]) S lab leaf := by
  have hpos := hp.proper.pos
  have hin := hp.inside hsubp
  have hdiv := div_add_mod p.sec.first t.size
  obtain ⟨⟨as, base, hs, hbase⟩, sub, hsub, hsb, hlen, htab⟩ := hsp
  have hkeep : ∀ {m : ℕ} {s : PhysSection}, d.sections[m]? = some s →
      (d.sections ++ [p.sec])[m]? = some s := fun h => getElem?_append_of_some h _
  have hcont : ∀ o < t.size, p.sec.Contains (q * t.size + o) ↔
      p.sec.first % t.size ≤ o ∧ o < p.sec.first % t.size + p.sec.len := by
    intro o _
    rw [hfirst, mul_comm] at hdiv
    rw [Contains]
    omega
  have hnew : ∀ p' ∈ P ++ [p], p' ∈ P ∨ p' = p := by
    intro p' hp'
    rcases mem_append.1 hp' with h | h
    · exact .inl h
    · exact .inr (List.mem_singleton.1 h)
  refine ⟨⟨hB.tree.le_nil, fun {r e} he => hB.tree.ok (r := r) ?_⟩, hB.leaf_zero,
    fun hm hm0 => ?_, hkeep hB.zero, ?_, ?_, ?_, ?_, fun q' hq' => ?_⟩
  · cases r <;> exact he
  · obtain ⟨s, hs, hpr, hc⟩ := hB.covered hm hm0
    exact ⟨s, hkeep hs, hpr, hc⟩
  · have := hB.length
    simp only [length_append, length_singleton]
    omega
  · simp only [length_append, length_singleton]
    omega
  · simp only [length_modify]
    exact hB.subpages
  · refine hB.nodes.trans (mul_le_mul_left _ ?_)
    simp
  · by_cases h : q' = q
    · subst h
      refine ⟨w, hwq, .subpage hw0 hqS ⟨⟨as, base, hkeep hs, hbase⟩, { sub with
        subSection := subpageRegister t sub.subSection first last d.sections.length },
        by simp only [getElem?_modify_eq, hsub]; rfl, hsb, ?_, fun o ho => ?_⟩⟩
      · rw [subpageRegister_eq (by omega) (by omega), length_subpageFill, hlen]
      · rw [subpageRegister_eq (by omega) (by omega),
          getElem?_subpageFill _ _ _ _ _ (by rwa [hlen])]
        split_ifs with hr
        · refine ⟨_, rfl, .inl ⟨p, List.mem_append_right _ (List.mem_singleton_self p), ?_, ?_⟩⟩
          · simp
          · exact (hcont o ho).2 (by omega)
        · obtain ⟨n, hn, hb⟩ := htab o ho
          refine ⟨n, hn, hb.mono hkeep (fun _ => mem_append_left _) fun p' hp' =>
            (hnew p' hp').imp_right ?_⟩
          rintro rfl
          rw [hcont o ho]
          omega
    · obtain ⟨w', hw', hok⟩ := hB.page q' hq'
      refine ⟨w', hw', hok.mono hkeep (fun {k' sub'} hs' hsb' => ?_)
        (fun _ => mem_append_left _) (fun p' hp' => (hnew p' hp').imp_right ?_) Iff.rfl⟩
      · have hk : k ≠ k' := by
          rintro rfl
          rw [hsub, Option.some.injEq] at hs'
          rw [← hs', hsb] at hsb'
          exact h (eq_of_mul_eq_mul_right t.size_pos hsb').symm
        simp only [getElem?_modify, if_neg hk, hs', Option.map_eq_map, Option.map_some]
      · rintro rfl a ha hc
        refine h ?_
        rw [← ha, ← hfirst]
        obtain ⟨h1, h2⟩ := hc
        refine le_antisymm ?_ (Nat.div_le_div_right h1)
        rw [← Nat.lt_succ_iff, Nat.div_lt_iff_lt_mul t.size_pos, Nat.succ_mul, mul_comm]
        omega

/-- `register_subpage`. -/
theorem registerSubpage_spec (hp : p.OK t) (hsub : p.whole = false)
    (hdisj : ∀ p' ∈ P, ∀ a, p'.sec.Contains a → ¬p.sec.Contains a) {S'}
    (hS' : S' = insert (p.sec.first / t.size) S) :
    (4 + (P.length + 1) + S'.card ≤ t.size → ∃ d' lab' leaf',
      registerSubpage t d p.sec = .ok d' ∧ Built t d' (P ++ [p]) S' lab' leaf') ∧
    (t.size < 4 + (P.length + 1) + S'.card →
      registerSubpage t d p.sec = .error .tooManySections) := by
  have hle := hp.proper.le
  have hpos := hp.proper.pos
  have hin := hp.inside hsub
  have hsize := t.size_lt
  have hq : p.sec.first / t.size < 2 ^ (64 - t.bits) := t.div_size_lt (by omega)
  have hno : ∀ p' ∈ P, ¬p'.sec.Contains p.sec.first := fun p' hp' hc =>
    hdisj p' hp' _ hc ⟨le_rfl, by omega⟩
  obtain ⟨existing, hfind, hok, herr⟩ := subpageAt_spec hB hq
    (t.toNat_and_mask p.sec.offsetWithinAddressSpace) rfl hno
  rw [← hS'] at hok herr
  have hget : p.sec.size.get64 = some (BitVec.ofNat 64 p.sec.len) := by
    rw [hp.proper.size_eq, Int128.get64_ofInt_natCast (by omega)]
  have hfst := t.toNat_and_not_mask p.sec.offsetWithinAddressSpace
  have hlast : ((p.sec.offsetWithinAddressSpace &&& ~~~t.mask) + BitVec.ofNat 64 p.sec.len -
      1).toNat + 1 = p.sec.first % t.size + p.sec.len := by
    rw [BitVec.toNat_sub, BitVec.toNat_add, BitVec.toNat_ofNat, hfst]
    have h1 : (1 : BitVec 64).toNat = 1 := rfl
    unfold first at *
    omega
  unfold registerSubpage
  dsimp only
  rw [hfind, orFail_some, except_ok_bind]
  constructor
  · intro hroom
    obtain ⟨d₁, k, lab', leaf', w, hat, hB₁, hw, hw0, hsp⟩ := hok (by omega)
    have hlen := hB₁.length
    have hlt : d₁.sections.length < t.size := by omega
    obtain ⟨alloc, hadd⟩ := physSectionAdd_ok hlt p.sec
    have hres := hB₁.register hp hsub hdisj hlt rfl hw hw0 hsp
      (by rw [hS']; exact mem_insert_self _ _) alloc hfst hlast
    refine ⟨_, lab', leaf', ?_, hres⟩
    rw [hat, except_ok_bind]
    rw [hget, orFail_some, except_ok_bind, hadd]
    rfl
  · intro hfull
    by_cases h : t.size < 4 + P.length + S'.card
    · rw [herr h]
      rfl
    · obtain ⟨d₁, k, lab', leaf', w, hat, hB₁, -⟩ := hok (by omega)
      have hlen := hB₁.length
      rw [hat, except_ok_bind]
      dsimp only
      rw [hget, orFail_some, except_ok_bind, physSectionAdd_error (by omega)]
      rfl

end

/-! ## A list of pieces -/

/-- The pages that get a `subpage_t`. -/
def subPages (t : TargetPage) (P : List Piece) : Finset ℕ :=
  ((P.filter fun p => !p.whole).map fun p => p.sec.first / t.size).toFinset

/-- The number of sections in the table once the pieces are registered : the four of
`mem_begin`, one for each piece, and one for each `subpage_t`. -/
def piecesNeeded (t : TargetPage) (P : List Piece) : ℕ := 4 + P.length + (subPages t P).card

theorem piecesNeeded_le (t : TargetPage) (P P' : List Piece) :
    piecesNeeded t P ≤ piecesNeeded t (P ++ P') := by
  have hsub : subPages t P ⊆ subPages t (P ++ P') := by
    intro q hq
    rw [subPages, filter_append, map_append, toFinset_append]
    exact mem_union_left _ hq
  have := card_le_card hsub
  simp only [piecesNeeded, length_append]
  omega

theorem subPages_append_whole (hp : p.whole = true) : subPages t (P ++ [p]) = subPages t P := by
  simp [subPages, hp]

theorem subPages_append_sub (hp : p.whole = false) :
    subPages t (P ++ [p]) = insert (p.sec.first / t.size) (subPages t P) := by
  simp [subPages, hp]

/-- The pieces have no byte in common. -/
def Piece.Apart (p p' : Piece) : Prop := ∀ a, p.sec.Contains a → ¬p'.sec.Contains a

/-- Registering a piece succeeds, unless the table of sections is full. -/
theorem registerPiece_spec (hB : Built t d P (subPages t P) lab leaf) (hP : ∀ p ∈ P, p.OK t)
    (hp : p.OK t) (hdisj : ∀ p' ∈ P, p'.Apart p) :
    (piecesNeeded t (P ++ [p]) ≤ t.size → ∃ d' lab' leaf', registerPiece t d p = .ok d' ∧
      Built t d' (P ++ [p]) (subPages t (P ++ [p])) lab' leaf') ∧
    (t.size < piecesNeeded t (P ++ [p]) → registerPiece t d p = .error .tooManySections) := by
  have hlen := hB.length
  unfold registerPiece piecesNeeded
  rw [length_append, length_singleton]
  by_cases hw : p.whole = true
  · rw [if_pos hw, subPages_append_whole hw]
    refine ⟨fun hroom => ?_, fun hfull => ?_⟩
    · refine registerMultipage_spec hB hp hw hdisj (fun q hq => ?_) (by omega)
      obtain ⟨p', hp', rfl⟩ := mem_map.1 (mem_toFinset.1 hq)
      have hmem := (mem_filter.1 hp').1
      exact ⟨p', hmem, (hP p' hmem).proper, rfl⟩
    · rw [registerMultipage, physSectionAdd_error (by omega)]
      rfl
  · rw [Bool.not_eq_true] at hw
    rw [if_neg (by simp [hw])]
    exact registerSubpage_spec hB hp hw hdisj (subPages_append_sub hw)

theorem foldlM_registerPiece_spec : ∀ (ps : List Piece) {P : List Piece} {d : AddressSpaceDispatch}
    {lab : ℕ → ℕ × ℕ} {leaf : ℕ → Prop}, Built t d P (subPages t P) lab leaf →
    (∀ p ∈ P ++ ps, p.OK t) → (P ++ ps).Pairwise Piece.Apart →
    (piecesNeeded t (P ++ ps) ≤ t.size → ∃ d' lab' leaf',
      ps.foldlM (registerPiece t) d = .ok d' ∧
        Built t d' (P ++ ps) (subPages t (P ++ ps)) lab' leaf') ∧
    (t.size < piecesNeeded t (P ++ ps) → ps.foldlM (registerPiece t) d = .error .tooManySections)
  | [], P, d, lab, leaf, hB, _, _ => by
    rw [append_nil]
    refine ⟨fun _ => ⟨d, lab, leaf, rfl, hB⟩, fun hfull => ?_⟩
    have hlen := hB.length
    have hle := hB.length_le
    unfold piecesNeeded at hfull
    omega
  | p :: ps, P, d, lab, leaf, hB, hok, hdisj => by
    rw [append_cons] at hok hdisj ⊢
    have hP : ∀ p' ∈ P, p'.OK t := fun p' hp' =>
      hok p' (mem_append_left _ (mem_append_left _ hp'))
    have hp : p.OK t := hok p (mem_append_left _ (by simp))
    have hapart : ∀ p' ∈ P, p'.Apart p := fun p' hp' =>
      (pairwise_append.1 (pairwise_append.1 hdisj).1).2.2 p' hp' p (by simp)
    have hmono := piecesNeeded_le t (P ++ [p]) ps
    obtain ⟨hstep, herr⟩ := registerPiece_spec hB hP hp hapart
    rw [foldlM_cons]
    by_cases hroom : piecesNeeded t (P ++ [p]) ≤ t.size
    · obtain ⟨d₁, lab₁, leaf₁, hd₁, hB₁⟩ := hstep hroom
      rw [hd₁, except_ok_bind]
      exact foldlM_registerPiece_spec ps hB₁ hok hdisj
    · rw [herr (not_le.1 hroom)]
      exact ⟨fun h => absurd (hmono.trans h) hroom, fun _ => rfl⟩

/-- The tree of `mem_begin`. -/
theorem built_empty {d} (hroot : d.physMap = ⟨1, physMapNodeNil⟩)
    (hnodes : d.nodes = []) (hzero : d.sections[0]? = some unassignedSection)
    (hlen : d.sections.length = 4) (hle : 4 ≤ t.size) (hsub : d.subpages = []) :
    Built t d [] ∅ (fun _ => (0, 0)) (fun m => m = 0) := by
  have hlev : t.l2Levels ≠ 0 := succ_ne_zero _
  refine ⟨⟨?_, fun {r e} he => ?_⟩, rfl, fun hm hm0 => absurd hm hm0, hzero, hlen, by omega, ?_, ?_,
    fun q _ => ⟨0, ?_, .empty (by simp) (by simp)⟩⟩
  · rw [hnodes]
    exact zero_le _
  · cases r with
    | physMap =>
      cases he
      rw [hroot]
      exact .nil hlev
    | node k i =>
      have := AddressSpaceDispatch.lt_of_entry_node he
      rw [hnodes] at this
      exact absurd this (not_lt_zero k)
  · rw [hsub]
    rfl
  · rw [hnodes]
    exact zero_le _
  · rw [hroot]
    exact physPageWalk_nil _ (one_le_iff_ne_zero.2 hlev) one_ne_zero _

theorem dummySection_ok (hlt : d.sections.length < t.size) (mr : PhysRegion) :
    ∃ d', dummySection t d mr = .ok (d', d.sections.length) ∧ d'.nodes = d.nodes ∧
      d'.subpages = d.subpages ∧
      d'.sections = d.sections ++ [{ unassignedSection with mr := mr }] := by
  obtain ⟨alloc, h⟩ := physSectionAdd_ok hlt { unassignedSection with mr := mr }
  exact ⟨_, h, rfl, rfl, rfl⟩

/-- `mem_begin` makes the tree without any section. -/
theorem memBegin_spec (t : TargetPage) (as : AsPtr) :
    (4 ≤ t.size → ∃ d, memBegin t as = .ok d ∧ Built t d [] ∅ (fun _ => (0, 0)) (fun m => m = 0)) ∧
    (t.size < 4 → memBegin t as = .error .tooManySections) := by
  have hsize : 2 ≤ t.size := by
    calc 2 = 2 ^ 1 := rfl
      _ ≤ t.size := Nat.pow_le_pow_right two_pos t.pos
  have hpos := t.size_pos
  obtain ⟨d₁, h₁, hn₁, hsub₁, hs₁⟩ := @dummySection_ok t (.new as) hpos .ioMemUnassigned
  have hl₁ : d₁.sections.length = 1 := by rw [hs₁]; rfl
  obtain ⟨d₂, h₂, hn₂, hsub₂, hs₂⟩ := @dummySection_ok t d₁ (by omega) .ioMemNotdirty
  have hl₂ : d₂.sections.length = 2 := by rw [hs₂, length_append, hl₁]; rfl
  unfold memBegin
  rw [h₁, except_ok_bind]
  dsimp only
  rw [dispatchAssert_pos (show (AddressSpaceDispatch.new as).sections.length =
    physSectionUnassigned from rfl), except_ok_bind, h₂, except_ok_bind]
  dsimp only
  rw [dispatchAssert_pos (show d₁.sections.length = physSectionNotdirty from hl₁), except_ok_bind]
  by_cases h2 : t.size = 2
  · refine ⟨fun hle => by omega, fun _ => ?_⟩
    rw [dummySection, physSectionAdd_error (by omega)]
    rfl
  obtain ⟨d₃, h₃, hn₃, hsub₃, hs₃⟩ := @dummySection_ok t d₂ (by omega) .ioMemRom
  have hl₃ : d₃.sections.length = 3 := by rw [hs₃, length_append, hl₂]; rfl
  rw [h₃, except_ok_bind]
  dsimp only
  rw [dispatchAssert_pos (show d₂.sections.length = physSectionRom from hl₂), except_ok_bind]
  refine ⟨fun hle => ?_, fun hlt => ?_⟩
  · obtain ⟨d₄, h₄, hn₄, hsub₄, hs₄⟩ := @dummySection_ok t d₃ (by omega) .ioMemWatch
    have hl₄ : d₄.sections.length = 4 := by rw [hs₄, length_append, hl₃]; rfl
    rw [h₄, except_ok_bind]
    rw [dispatchAssert_pos (show d₃.sections.length = physSectionWatch from hl₃), except_ok_bind]
    refine ⟨_, rfl, built_empty rfl (by rw [hn₄, hn₃, hn₂, hn₁]; rfl) ?_ hl₄ hle
      (by rw [hsub₄, hsub₃, hsub₂, hsub₁]; rfl)⟩
    rw [hs₄, hs₃, hs₂, hs₁]
    rfl
  · rw [dummySection, physSectionAdd_error (by omega)]
    rfl

/-! ## Lookup -/

/-- A lookup in the compacted tree gives the piece that contains the address. -/
theorem Built.lookup (hB : Built t d P S lab leaf) (hP : ∀ p ∈ P, p.OK t) :
    ∃ d', memCommit t d = .ok d' ∧ ∀ a : Hwaddr,
      (∃ p ∈ P, p.sec.Contains a.toNat ∧ addressSpaceLookupRegion t d' a true = some p.sec) ∨
      ((∀ p ∈ P, ¬p.sec.Contains a.toNat) ∧
        addressSpaceLookupRegion t d' a true = some unassignedSection) := by
  have hleaf : ∀ {m}, leaf m → m < physMapNodeNil := fun hm =>
    (hB.leaf_lt hm).trans_le (hB.length_le.trans (t.size_le.trans (by decide)))
  obtain ⟨d', hres, hT, hframe, hwalk⟩ := physPageCompactAll_spec (hB.tree.skipTree hleaf)
  have hsec : d'.sections = d.sections := by rw [hframe]
  have hsub : d'.subpages = d.subpages := by rw [hframe]
  refine ⟨d', hres, fun a => ?_⟩
  have hq : a.toNat / t.size < 2 ^ (64 - t.bits) := t.div_size_lt a.isLt
  obtain ⟨w, hw, hok⟩ := hB.page _ hq
  unfold addressSpaceLookupRegion
  cases hok with
  | empty hqS hno =>
    refine .inr ⟨fun p hp => hno p hp _ rfl, ?_⟩
    have hzero : d'.sections[physSectionUnassigned]? = some unassignedSection := by
      rw [hsec]
      exact hB.zero
    have hfind : physPageFind t d' d'.physMap a = some unassignedSection := by
      obtain ⟨v, hv, hv'⟩ := hT.exists_walk (a.toNat / t.size) t.l2Levels
        (show d'.entry .physMap = some d'.physMap from rfl) rfl
      by_cases hv0 : v = 0
      · rw [hv0] at hv
        exact (physPageFind_eq hv hzero proper_unassignedSection).1 (contains_unassignedSection a)
      · -- the walk went astray, to a section that cannot contain the address
        obtain ⟨s, hs, hp, hc⟩ := hB.covered (hv'.resolve_left hv0) hv0
        have hnot : ¬s.Contains a.toNat := fun h => by
          have := hc _ h
          rw [hw, some.injEq] at this
          exact hv0 this.symm
        rw [(physPageFind_eq hv (by rw [hsec, hs]) hp).2 hnot, hzero]
    rw [hfind]
    rfl
  | @whole w p hw0 hp hs hall =>
    refine .inl ⟨p, hp, hall _ rfl, ?_⟩
    obtain ⟨mr, hmr⟩ := (hP p hp).region
    rw [(physPageFind_eq (hwalk _ _ hw0 hw) (by rw [hsec, hs]) (hP p hp).proper).1 (hall _ rfl)]
    simp only [bind_eq_bind, bind_some, hmr]
  | @subpage w k hw0 hqS hsp =>
    obtain ⟨⟨as, base, hs, hbase⟩, sub, hk, hsb, hlen, htab⟩ := hsp
    obtain ⟨hpr, hcont⟩ := proper_subpageSection hq hbase as k
    obtain ⟨n, hn, hb⟩ := htab (a.toNat % t.size) (mod_lt _ t.size_pos)
    rw [mul_comm, div_add_mod] at hb
    rw [(physPageFind_eq (hwalk _ _ hw0 hw) (by rw [hsec, hs]) hpr).1 ((hcont _).2 rfl)]
    simp only [bind_eq_bind, bind_some, subpageSection, if_true, hsub, hk, hsec,
      t.toNat_and_not_mask, hn]
    rcases hb with ⟨p, hp, hps, hpa⟩ | ⟨rfl, hno⟩
    · exact .inl ⟨p, hp, hpa, hps⟩
    · exact .inr ⟨hno, hB.zero⟩

/-! ## One update -/

/-- All pieces of the sections. -/
def sectionPieces (t : TargetPage) (secs : List MemoryRegionSection) : List Piece :=
  secs.flatMap fun sec => splitSection t sec.toPhys

/-- The number of sections that an update puts into the table. -/
def sectionsNeeded (t : TargetPage) (secs : List MemoryRegionSection) : ℕ :=
  piecesNeeded t (sectionPieces t secs)

/-- Sections that have no byte in common. -/
def MemoryRegionSection.Apart (s s' : MemoryRegionSection) : Prop :=
  ∀ a, s.toPhys.Contains a → ¬s'.toPhys.Contains a

theorem foldlM_memAdd : ∀ secs d, (∀ sec ∈ secs, sec.toPhys.Proper) →
    secs.foldlM (memAdd t) d = (sectionPieces t secs).foldlM (registerPiece t) d
  | [], _, _ => rfl
  | sec :: secs, d, h => by
    rw [foldlM_cons, memAdd_eq (h sec mem_cons_self), sectionPieces, flatMap_cons, foldlM_append]
    congr 1
    funext d'
    exact foldlM_memAdd secs d' fun s hs => h s (mem_cons_of_mem _ hs)

theorem mem_sectionPieces {secs}
    (hsecs : ∀ sec ∈ secs, sec.toPhys.Proper) (hp : p ∈ sectionPieces t secs) :
    p.OK t ∧ ∃ sec ∈ secs, p.sec.PartOf sec.toPhys := by
  obtain ⟨sec, hsec, hp⟩ := mem_flatMap.1 hp
  obtain ⟨hok, hpart⟩ := mem_splitSection (hsecs sec hsec) ⟨_, rfl⟩ hp
  exact ⟨hok, sec, hsec, hpart⟩

theorem pairwise_sectionPieces : ∀ {secs : List MemoryRegionSection},
    (∀ sec ∈ secs, sec.toPhys.Proper) → secs.Pairwise MemoryRegionSection.Apart →
    (sectionPieces t secs).Pairwise Piece.Apart
  | [], _, _ => Pairwise.nil
  | sec :: secs, hsecs, hdisj => by
    have hsec := hsecs sec mem_cons_self
    have hrest : ∀ s ∈ secs, s.toPhys.Proper := fun s hs => hsecs s (mem_cons_of_mem _ hs)
    obtain ⟨hhead, htail⟩ := pairwise_cons.1 hdisj
    refine pairwise_append.2 ⟨?_, pairwise_sectionPieces hrest htail, fun p hp p' hp' => ?_⟩
    · refine (pairwise_splitSection hsec ⟨_, rfl⟩).imp fun hbefore a ha ha' => ?_
      have h1 := ha.2
      have h2 := ha'.1
      unfold Piece.Before at hbefore
      omega
    · obtain ⟨-, hpart⟩ := mem_splitSection hsec ⟨_, rfl⟩ hp
      obtain ⟨-, s, hs, hpart'⟩ := mem_sectionPieces hrest hp'
      exact fun a ha ha' => hhead s hs a (hpart.contains hsec ha) (hpart'.contains (hrest s hs) ha')

/-- The section found for an address is right : it is of the region, at the offset, that the
section of the list with this address says, and it is the unassigned one if there is none. -/
def LookupOK (secs : List MemoryRegionSection) (a : Hwaddr) (s : PhysSection) : Prop :=
  (∃ sec ∈ secs, sec.toPhys.Contains a.toNat ∧ s.mr = .region sec.mr ∧
      s.addressSpace = sec.addressSpace ∧ s.readonly = sec.readonly ∧
      a - s.offsetWithinAddressSpace + s.offsetWithinRegion =
        a - sec.offsetWithinAddressSpace + sec.offsetWithinRegion) ∨
    (∀ sec ∈ secs, ¬sec.toPhys.Contains a.toNat) ∧ s = unassignedSection

section

variable {secs : List MemoryRegionSection} (as : AsPtr) (hsecs : ∀ sec ∈ secs, sec.toPhys.Proper)
  (hdisj : secs.Pairwise MemoryRegionSection.Apart)
include hsecs hdisj

/-- What `mem_begin` and the calls of `mem_add` build, if the table of sections has room. -/
theorem foldlM_memAdd_spec (h4 : 4 ≤ t.size) : ∃ d₀, memBegin t as = .ok d₀ ∧
    (sectionsNeeded t secs ≤ t.size → ∃ d lab leaf, secs.foldlM (memAdd t) d₀ = .ok d ∧
      Built t d (sectionPieces t secs) (subPages t (sectionPieces t secs)) lab leaf) ∧
    (t.size < sectionsNeeded t secs → secs.foldlM (memAdd t) d₀ = .error .tooManySections) := by
  obtain ⟨d₀, hd₀, hB₀⟩ := (memBegin_spec t as).1 h4
  refine ⟨d₀, hd₀, ?_⟩
  rw [foldlM_memAdd secs d₀ hsecs]
  exact foldlM_registerPiece_spec (sectionPieces t secs) hB₀
    (fun p hp => (mem_sectionPieces hsecs (by rwa [nil_append] at hp)).1)
    (by rw [nil_append]; exact pairwise_sectionPieces hsecs hdisj)

/-- The update stops at the assertion of `phys_section_add` when the table is full. -/
theorem dispatchUpdate_tooManySections (hover : t.size < sectionsNeeded t secs) :
    dispatchUpdate t as secs = .error .tooManySections := by
  unfold dispatchUpdate
  by_cases h4 : 4 ≤ t.size
  · obtain ⟨d₀, hd₀, -, herr⟩ := foldlM_memAdd_spec as hsecs hdisj h4
    rw [hd₀, except_ok_bind, herr hover]
    rfl
  · rw [(memBegin_spec t as).2 (not_le.1 h4)]
    rfl

end

/-- An update with disjoint sections stops at most because the table of sections is full. If
it is not, every lookup in the tree agrees with the sections. -/
theorem dispatchUpdate_lookup (t : TargetPage) (as : AsPtr) (secs : List MemoryRegionSection)
    (hsecs : ∀ sec ∈ secs, sec.toPhys.Proper) (hdisj : secs.Pairwise MemoryRegionSection.Apart) :
    (sectionsNeeded t secs ≤ t.size → ∃ d, dispatchUpdate t as secs = .ok d ∧
      ∀ a, ∃ s, addressSpaceLookupRegion t d a true = some s ∧ LookupOK secs a s) ∧
    (t.size < sectionsNeeded t secs → dispatchUpdate t as secs = .error .tooManySections) := by
  refine ⟨fun hroom => ?_, dispatchUpdate_tooManySections as hsecs hdisj⟩
  have h4 : 4 ≤ t.size := by
    unfold sectionsNeeded piecesNeeded at hroom
    omega
  obtain ⟨d₀, hd₀, hstep, -⟩ := foldlM_memAdd_spec as hsecs hdisj h4
  obtain ⟨d, lab, leaf, hd, hB⟩ := hstep hroom
  obtain ⟨d', hd', hlook⟩ := hB.lookup fun p hp => (mem_sectionPieces hsecs hp).1
  refine ⟨d', by rw [dispatchUpdate, hd₀, except_ok_bind, hd, except_ok_bind, hd'], fun a => ?_⟩
  rcases hlook a with ⟨p, hp, hpa, hres⟩ | ⟨hno, hres⟩
  · obtain ⟨-, sec, hsec, hpart⟩ := mem_sectionPieces hsecs hp
    refine ⟨_, hres, Or.inl ⟨sec, hsec, hpart.contains (hsecs sec hsec) hpa, ?_⟩⟩
    obtain ⟨k, n, hcut, -⟩ := hpart
    rw [hcut]
    refine ⟨rfl, rfl, rfl, ?_⟩
    show a - (sec.offsetWithinAddressSpace + BitVec.ofNat 64 k) +
      (sec.offsetWithinRegion + BitVec.ofNat 64 k) = _
    ring
  · refine ⟨_, hres, Or.inr ⟨fun sec hsec ha => ?_, rfl⟩⟩
    obtain ⟨p, hp, hpa⟩ := @exists_mem_splitSection t _ (hsecs sec hsec) _ ha
    exact hno p (mem_flatMap.2 ⟨sec, hsec, hp⟩) hpa

end

/-- The pages of the ARM system targets. -/
def armPage : TargetPage := ⟨10, by decide, by decide⟩

/-- Two sections, neither of which starts or ends at a page boundary, that meet inside a
page. -/
def sharedPageSections : List MemoryRegionSection :=
  [{ mr := some 0, addressSpace := 0, offsetWithinRegion := 0, size := .make64 0x900
     offsetWithinAddressSpace := 0x200, readonly := false },
   { mr := some 1, addressSpace := 0, offsetWithinRegion := 0x40, size := .make64 0x600
     offsetWithinAddressSpace := 0xb00, readonly := true }]

/-- The theorem at these sections : they share a `subpage_t`. -/
theorem dispatchUpdate_lookup_sharedPageSections :
    ∃ d, dispatchUpdate armPage 0 sharedPageSections = .ok d ∧
      ∀ a, ∃ s, addressSpaceLookupRegion armPage d a true = some s ∧
        LookupOK sharedPageSections a s := by
  refine (dispatchUpdate_lookup armPage 0 sharedPageSections (fun sec hsec => ?_) ?_).1
    (by decide +kernel)
  · rcases mem_pair.1 hsec with rfl | rfl <;> constructor <;> decide
  · refine pairwise_pair.2 fun a ha ha' => ?_
    have h1 : a < 0xb00 := ha.2
    have h2 : 0xb00 ≤ a := ha'.1
    omega

/-- A section of a page and a half, from the start of a page. -/
def pageAndHalf (i : ℕ) : MemoryRegionSection :=
  { mr := some 0, addressSpace := 0, offsetWithinRegion := 0, size := .make64 0x600
    offsetWithinAddressSpace := .ofNat 64 (0x800 * i), readonly := false }

/-- Such sections in 341 pairs of pages. -/
def pageAndHalfSections : List MemoryRegionSection := (List.range 341).map pageAndHalf

theorem first_pageAndHalf {i : ℕ} (hi : i < 341) : (pageAndHalf i).toPhys.first = 0x800 * i := by
  show (BitVec.ofNat 64 (0x800 * i)).toNat = 0x800 * i
  rw [BitVec.toNat_ofNat]
  omega

/-- Each of the sections takes three entries : a page, a part of a page and a `subpage_t`. With the
four fixed ones they are more than the table holds, though there are fewer sections than that. -/
theorem dispatchUpdate_pageAndHalfSections :
    (∀ sec ∈ pageAndHalfSections, sec.toPhys.Proper) ∧
      pageAndHalfSections.Pairwise MemoryRegionSection.Apart ∧
      pageAndHalfSections.length < armPage.size ∧
      dispatchUpdate armPage 0 pageAndHalfSections = .error .tooManySections := by
  have hlen : ∀ i, (pageAndHalf i).toPhys.len = 0x600 := fun _ =>
    show (Int128.make64 0x600).toInt.toNat = 0x600 by decide
  have hsecs : ∀ sec ∈ pageAndHalfSections, sec.toPhys.Proper := by
    intro sec hsec
    obtain ⟨i, hi, rfl⟩ := mem_map.1 hsec
    have hfirst := first_pageAndHalf (List.mem_range.1 hi)
    have hi := List.mem_range.1 hi
    exact ⟨by rw [hlen]; decide, by rw [hlen, hfirst]; omega⟩
  have hdisj : pageAndHalfSections.Pairwise MemoryRegionSection.Apart := by
    refine pairwise_map.2 (pairwise_lt_range.imp_of_mem fun {i j} hi hj hij a ha ha' => ?_)
    have h1 := ha.2
    have h2 := ha'.1
    rw [hlen, first_pageAndHalf (List.mem_range.1 hi)] at h1
    rw [first_pageAndHalf (List.mem_range.1 hj)] at h2
    omega
  exact ⟨hsecs, hdisj, by decide +kernel,
    dispatchUpdate_tooManySections 0 hsecs hdisj (by decide +kernel)⟩

end QemuArm
