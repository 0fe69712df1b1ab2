import QemuArm.Qcow2RefTable

/-!
# Refcounts are changed together

`update_refcount` goes through its clusters one by one. As long as there are refcount blocks for
them, each is changed by the addend (`updateLoop_done`); where a count would leave its range the
loop stops, and a second call takes back what was done (`updateRefcount_described`).
-/

namespace QemuArm

open List Option Function Nat

namespace RefcountState

variable {s : RefcountState} {update : Update} {addend : ℤ} {c : ℕ}

theorem clusterSize_pos (s : RefcountState) : 0 < s.clusterSize := Nat.two_pow_pos _

theorem blockClusters_pos (s : RefcountState) : 0 < s.blockClusters := Nat.two_pow_pos _

/-! ## One cluster -/

/-- There is a refcount block for the cluster. -/
def Described (s : RefcountState) (c : ℕ) : Prop := s.blockOf (c / s.blockClusters) ≠ 0

/-- The refcount can be changed by `addend`. -/
def InRange (s : RefcountState) (addend : ℤ) (c : ℕ) : Prop :=
  0 ≤ s.getRefcount c + addend ∧ s.getRefcount c + addend ≤ 0xffff

instance : Decidable (s.Described c) := inferInstanceAs (Decidable (_ ≠ _))

instance : Decidable (s.InRange addend c) := inferInstanceAs (Decidable (_ ∧ _))

/-- The table is in 32 bits, and no two of its entries are the same block. -/
structure Layout (s : RefcountState) : Prop where
  length_lt : s.refcountTable.length < 2 ^ 32
  inj : ∀ i j, s.blockOf i = s.blockOf j → s.blockOf i ≠ 0 → i = j

theorem lt_length_of_blockOf {i} (h : s.blockOf i ≠ 0) : i < s.refcountTable.length := by
  by_contra hge
  exact h (getD_eq_default _ _ (not_lt.1 hge))

theorem Described.lt (h : s.Described c) : c / s.blockClusters < s.refcountTable.length :=
  lt_length_of_blockOf h

theorem Described.getRefcount (h : s.Described c) :
    s.getRefcount c = (s.blocks (s.blockOf (c / s.blockClusters)) (c % s.blockClusters)).toNat := by
  exact if_neg h

theorem getRefcount_eq_zero (h : ¬ s.Described c) : s.getRefcount c = 0 := by
  exact if_pos (not_not.1 h)

theorem described_of_getRefcount (h : s.getRefcount c ≠ 0) : s.Described c := by
  by_contra hno
  exact h (getRefcount_eq_zero hno)

theorem getRefcount_lt (s : RefcountState) (c : ℕ) : s.getRefcount c < 2 ^ 16 := by
  by_cases h : s.Described c
  · rw [h.getRefcount]
    exact BitVec.isLt _
  · rw [getRefcount_eq_zero h]
    decide

/-- What the loop does to one cluster. -/
def bump (addend : ℤ) (s : RefcountState) (c : ℕ) : RefcountState :=
  let refcount : ℤ := s.getRefcount c + addend
  let s' := if refcount = 0 ∧ c < s.freeClusterIndex then { s with freeClusterIndex := c } else s
  s'.setRefcount (s.blockOf (c / s.blockClusters)) (c % s.blockClusters)
    (BitVec.ofNat 16 refcount.toNat)

/-- `s'` has the table of `s`, and has taken the same clusters. -/
structure SameTable (s s' : RefcountState) : Prop where
  clusterBits : s'.clusterBits = s.clusterBits
  refcountTable : s'.refcountTable = s.refcountTable
  refcountTableOffset : s'.refcountTableOffset = s.refcountTableOffset
  taken : s'.taken = s.taken

section Congr

variable {s' : RefcountState} (hbits : s'.clusterBits = s.clusterBits)
  (htable : s'.refcountTable = s.refcountTable)

include hbits in
theorem blockClusters_congr : s'.blockClusters = s.blockClusters := by
  rw [blockClusters, hbits, blockClusters]

include hbits in
theorem clusterSize_congr : s'.clusterSize = s.clusterSize := by
  rw [clusterSize, hbits, clusterSize]

include htable in
theorem blockOf_congr (i : ℕ) : s'.blockOf i = s.blockOf i := by
  rw [blockOf, htable, blockOf]

include hbits htable in
theorem described_congr : s'.Described c ↔ s.Described c := by
  rw [Described, blockClusters_congr hbits, blockOf_congr htable, Described]

include htable in
theorem Layout.congr (hl : s.Layout) : s'.Layout := by
  refine ⟨htable ▸ hl.length_lt, fun i j => ?_⟩
  rw [blockOf_congr htable, blockOf_congr htable]
  exact hl.inj i j

end Congr

namespace SameTable

variable {s' s'' : RefcountState}

theorem refl (s : RefcountState) : SameTable s s := ⟨rfl, rfl, rfl, rfl⟩

section

variable (h : SameTable s s')
include h

theorem trans (h' : SameTable s' s'') : SameTable s s'' :=
  ⟨h'.clusterBits.trans h.clusterBits, h'.refcountTable.trans h.refcountTable,
    h'.refcountTableOffset.trans h.refcountTableOffset, h'.taken.trans h.taken⟩

theorem blockClusters : s'.blockClusters = s.blockClusters := blockClusters_congr h.clusterBits

theorem clusterSize : s'.clusterSize = s.clusterSize := clusterSize_congr h.clusterBits

theorem blockOf (i : ℕ) : s'.blockOf i = s.blockOf i := blockOf_congr h.refcountTable i

theorem described : s'.Described c ↔ s.Described c :=
  described_congr h.clusterBits h.refcountTable

theorem layout (hl : s.Layout) : s'.Layout := hl.congr h.refcountTable

end

end SameTable

theorem sameTable_bump (addend : ℤ) (s : RefcountState) (c : ℕ) :
    SameTable s (bump addend s c) := by
  unfold bump setRefcount
  dsimp only
  split <;> exact ⟨rfl, rfl, rfl, rfl⟩

theorem bump_blocks (addend : ℤ) (s : RefcountState) (c : ℕ) :
    (bump addend s c).blocks = Function.update s.blocks (s.blockOf (c / s.blockClusters))
      (Function.update (s.blocks (s.blockOf (c / s.blockClusters))) (c % s.blockClusters)
        (BitVec.ofNat 16 (s.getRefcount c + addend).toNat)) := by
  unfold bump setRefcount
  dsimp only
  split <;> rfl

theorem getRefcount_bump (hl : s.Layout) (hd : s.Described c) (hr : s.InRange addend c) (k : ℕ) :
    ((bump addend s c).getRefcount k : ℤ) =
      if k = c then s.getRefcount c + addend else s.getRefcount k := by
  have hsame := sameTable_bump addend s c
  by_cases hk : s.Described k
  · rw [(hsame.described.2 hk).getRefcount, hsame.blockOf, hsame.blockClusters, bump_blocks]
    by_cases hblock : k / s.blockClusters = c / s.blockClusters
    · rw [hblock, Function.update_self]
      by_cases hkc : k = c
      · subst hkc
        rw [Function.update_self, BitVec.toNat_ofNat]
        obtain ⟨hlow, hhigh⟩ := hr
        omega
      · -- another entry of the same block
        have hmod : k % s.blockClusters ≠ c % s.blockClusters := by
          intro hmod
          refine hkc ?_
          rw [← div_add_mod k s.blockClusters, hblock, hmod, div_add_mod]
        rw [update_of_ne hmod, if_neg hkc, hk.getRefcount, hblock]
    · have hne : s.blockOf (k / s.blockClusters) ≠ s.blockOf (c / s.blockClusters) :=
        fun heq => hblock (hl.inj _ _ heq hk)
      have hkc : k ≠ c := fun heq => hblock (heq ▸ rfl)
      rw [update_of_ne hne, if_neg hkc, hk.getRefcount]
  · have hkc : k ≠ c := fun heq => hk (heq ▸ hd)
    rw [if_neg hkc, getRefcount_eq_zero hk,
      getRefcount_eq_zero (fun hk' => hk (hsame.described.1 hk'))]

theorem bump_freeClusterIndex (addend : ℤ) (s : RefcountState) (c : ℕ) :
    (bump addend s c).freeClusterIndex =
      if s.getRefcount c + addend = 0 then min s.freeClusterIndex c else s.freeClusterIndex := by
  unfold bump setRefcount
  dsimp only
  split
  · next h => rw [if_pos h.1, min_eq_right h.2.le]
  · next h =>
    split
    · next h' => exact (min_eq_left (not_lt.1 fun hlt => h ⟨h', hlt⟩)).symm
    · rfl

/-! ## The clusters that are done -/

def bumps (addend : ℤ) (l : List ℕ) (s : RefcountState) : RefcountState := l.foldl (bump addend) s

theorem bumps_cons (addend : ℤ) (c : ℕ) (l : List ℕ) (s : RefcountState) :
    bumps addend (c :: l) s = bumps addend l (bump addend s c) := rfl

theorem sameTable_bumps (addend : ℤ) : ∀ (l : List ℕ) s, SameTable s (bumps addend l s)
  | [], s => SameTable.refl s
  | c :: l, s => (sameTable_bump addend s c).trans (sameTable_bumps addend l _)

/-- The loop can change each of the clusters. -/
def CanBump (s : RefcountState) (addend : ℤ) (l : List ℕ) : Prop :=
  ∀ c ∈ l, s.Described c ∧ s.InRange addend c

/-- A change of one cluster leaves the others as they are. -/
theorem CanBump.tail {l} (hl : s.Layout) (hnodup : (c :: l).Nodup)
    (h : s.CanBump addend (c :: l)) : (bump addend s c).CanBump addend l := by
  intro k hk
  obtain ⟨hd, hr⟩ := h c mem_cons_self
  obtain ⟨hdk, hlow, hhigh⟩ := h k (mem_cons_of_mem _ hk)
  have hkc : k ≠ c := fun heq => (nodup_cons.1 hnodup).1 (heq ▸ hk)
  have hget := getRefcount_bump hl hd hr k
  refine ⟨(sameTable_bump addend s c).described.2 hdk, ?_, ?_⟩ <;> omega

theorem getRefcount_bumps : ∀ {l : List ℕ} {s : RefcountState}, s.Layout → l.Nodup →
    s.CanBump addend l → ∀ k, ((bumps addend l s).getRefcount k : ℤ) =
      if k ∈ l then s.getRefcount k + addend else s.getRefcount k
  | [], _, _, _, _, k => by rw [if_neg not_mem_nil]; rfl
  | c :: l, s, hl, hnodup, h, k => by
    obtain ⟨hd, hr⟩ := h c mem_cons_self
    obtain ⟨hc, hnodup'⟩ := nodup_cons.1 hnodup
    rw [bumps_cons, getRefcount_bumps ((sameTable_bump addend s c).layout hl) hnodup'
      (h.tail hl hnodup) k, getRefcount_bump hl hd hr k]
    by_cases hk : k = c
    · subst hk
      rw [if_neg hc, if_pos rfl, if_pos mem_cons_self]
    · rw [if_neg hk]
      simp [hk]

theorem le_foldl_min {a b : ℕ} : ∀ {l : List ℕ}, b ≤ l.foldl min a ↔ b ≤ a ∧ ∀ x ∈ l, b ≤ x := by
  intro l
  induction l generalizing a with
  | nil => simp only [foldl_nil, not_mem_nil, false_imp_iff, implies_true, and_true]
  | cons x l ih => rw [foldl_cons, ih, le_min_iff, forall_mem_cons, and_assoc]

/-- `free_cluster_index` goes back to the first cluster that has no references any more. -/
theorem bumps_freeClusterIndex : ∀ {l : List ℕ} {s : RefcountState}, s.Layout → l.Nodup →
    s.CanBump addend l → (bumps addend l s).freeClusterIndex =
      (l.filter fun k => s.getRefcount k + addend = 0).foldl min s.freeClusterIndex
  | [], _, _, _, _ => rfl
  | c :: l, s, hl, hnodup, h => by
    obtain ⟨hd, hr⟩ := h c mem_cons_self
    obtain ⟨hc, hnodup'⟩ := nodup_cons.1 hnodup
    have hrest : ∀ k ∈ l, decide (((bump addend s c).getRefcount k : ℤ) + addend = 0) =
        decide ((s.getRefcount k : ℤ) + addend = 0) := by
      intro k hk
      have hkc : k ≠ c := fun heq => hc (heq ▸ hk)
      rw [getRefcount_bump hl hd hr k, if_neg hkc]
    rw [bumps_cons, bumps_freeClusterIndex ((sameTable_bump addend s c).layout hl) hnodup'
      (h.tail hl hnodup), filter_congr hrest, bump_freeClusterIndex, filter_cons]
    simp only [decide_eq_true_eq]
    split <;> rfl

theorem bumps_freeClusterIndex_le {l} (hl : s.Layout) (hnodup : l.Nodup)
    (h : s.CanBump addend l) : (bumps addend l s).freeClusterIndex ≤ s.freeClusterIndex ∧
      ∀ k ∈ l, s.getRefcount k + addend = 0 → (bumps addend l s).freeClusterIndex ≤ k := by
  obtain ⟨hle, hmem⟩ := le_foldl_min.1 (bumps_freeClusterIndex hl hnodup h).le
  exact ⟨hle, fun k hk hzero => hmem k (mem_filter.2 ⟨hk, decide_eq_true hzero⟩)⟩

/-! ## The loop -/

theorem allocRefcountBlock_described (hl : s.Layout) (hd : s.Described c) :
    s.allocRefcountBlock update c = some (s, .ok (s.blockOf (c / s.blockClusters))) := by
  have hmod : c / s.blockClusters % 2 ^ 32 = c / s.blockClusters :=
    mod_eq_of_lt (hd.lt.trans hl.length_lt)
  unfold allocRefcountBlock
  rw [hmod]
  exact if_pos hd

/-- A block is returned only if it was there before. -/
theorem allocRefcountBlock_ok {s' b} (h : s.allocRefcountBlock update c = some (s', .ok b)) :
    s' = s ∧ b = s.blockOf (c / s.blockClusters % 2 ^ 32) ∧ b ≠ 0 := by
  unfold allocRefcountBlock at h
  dsimp only at h
  split at h
  · next hne =>
    obtain ⟨rfl, rfl⟩ := h
    exact ⟨rfl, rfl, hne⟩
  · obtain ⟨⟨s₁, r⟩, -, h⟩ := bind_eq_some_iff.1 h
    cases r with
    | error e => cases h
    | ok newBlock =>
      dsimp only at h
      split at h
      · cases h
      · obtain ⟨r, -, h⟩ := bind_eq_some_iff.1 h
        cases r with
        | error e => cases h
        | ok g =>
          obtain ⟨⟨s₂, r⟩, -, h⟩ := map_eq_some_iff.1 h
          cases h

/-- The current block of the loop is in the table. -/
def CurOk (s : RefcountState) (cur : Option (ℕ × ℕ)) : Prop :=
  ∀ i b, cur = some (i, b) → b = s.blockOf i ∧ b ≠ 0

theorem curOk_none (s : RefcountState) : s.CurOk none := fun _ _ h => by cases h

variable {cur : Option (ℕ × ℕ)} {rest : List ℕ}

/-- The loop at a cluster that a block describes. -/
theorem updateLoop_described (hl : s.Layout) (hcur : s.CurOk cur) (hd : s.Described c) :
    updateLoop update addend (c :: rest) cur s =
      if s.InRange addend c then
        updateLoop update addend rest (some (c / s.blockClusters, s.blockOf (c / s.blockClusters)))
          (bump addend s c)
      else some (s, some (c, .einval)) := by
  have hload : s.loadBlock update cur c = some (s, .ok (s.blockOf (c / s.blockClusters))) := by
    rcases cur with _ | ⟨old, block⟩
    · exact allocRefcountBlock_described hl hd
    · rw [loadBlock]
      split
      · next heq => rw [(hcur old block rfl).1, heq]
      · exact allocRefcountBlock_described hl hd
  rw [updateLoop]
  rw [hload, bind_some]
  dsimp only
  rw [← hd.getRefcount]
  by_cases hr : s.InRange addend c
  · rw [if_neg (by obtain ⟨hlow, hhigh⟩ := hr; omega)]
    unfold bump
    dsimp only
    split
    · rfl
    · rfl
  · rw [if_neg hr, if_pos]
    by_contra hno
    rw [not_or, not_lt, not_lt] at hno
    exact hr hno

theorem loadBlock_missing (hcur : s.CurOk cur) (hd : ¬ s.Described c) :
    s.loadBlock update cur c = s.allocRefcountBlock update c := by
  rcases cur with _ | ⟨old, block⟩
  · rfl
  · obtain ⟨hblock, hne⟩ := hcur old block rfl
    exact if_neg fun heq => hd (by rwa [Described, heq, ← hblock])

/-- The loop at a cluster without a block. -/
theorem updateLoop_missing (hcur : s.CurOk cur) (hd : ¬ s.Described c)
    (hidx : c / s.blockClusters < 2 ^ 32) {s' r}
    (h : updateLoop update addend (c :: rest) cur s = some (s', r)) :
    ∃ e, s.allocRefcountBlock update c = some (s', .error e) ∧ r = some (c, e) := by
  rw [updateLoop] at h
  rw [loadBlock_missing hcur hd] at h
  obtain ⟨⟨s₁, r₁⟩, halloc, h⟩ := bind_eq_some_iff.1 h
  cases r₁ with
  | error e =>
    cases h
    exact ⟨e, halloc, rfl⟩
  | ok b =>
    obtain ⟨-, hb, hne⟩ := allocRefcountBlock_ok halloc
    rw [mod_eq_of_lt hidx] at hb
    exact absurd (show s.Described c by rwa [Described, ← hb]) hd

/-- The loop over clusters that it can change. -/
theorem updateLoop_done (update : Update) (rest : List ℕ) :
    ∀ {l : List ℕ} {cur : Option (ℕ × ℕ)} {s : RefcountState}, s.Layout → l.Nodup → s.CurOk cur →
    s.CanBump addend l → ∃ cur', (bumps addend l s).CurOk cur' ∧
      updateLoop update addend (l ++ rest) cur s =
        updateLoop update addend rest cur' (bumps addend l s)
  | [], cur, _, _, _, hcur, _ => ⟨cur, hcur, rfl⟩
  | c :: l, cur, s, hl, hnodup, hcur, h => by
    obtain ⟨hd, hr⟩ := h c mem_cons_self
    have hsame := sameTable_bump addend s c
    have hcur' : (bump addend s c).CurOk
        (some (c / s.blockClusters, s.blockOf (c / s.blockClusters))) := by
      intro i b heq
      cases heq
      exact ⟨(hsame.blockOf _).symm, hd⟩
    obtain ⟨cur'', hok, heq⟩ := updateLoop_done update rest (hsame.layout hl)
      (nodup_cons.1 hnodup).2
      hcur' (h.tail hl hnodup)
    refine ⟨cur'', hok, ?_⟩
    rw [cons_append, updateLoop_described hl hcur hd, if_pos hr, heq, bumps_cons]

/-- A list of clusters, up to the first that the loop cannot change. -/
theorem exists_canBump (s : RefcountState) (addend : ℤ) : ∀ l : List ℕ,
    ∃ done rest, l = done ++ rest ∧ s.CanBump addend done ∧
      ∀ c ∈ rest.head?, ¬ (s.Described c ∧ s.InRange addend c)
  | [] => ⟨[], [], rfl, fun _ h => absurd h not_mem_nil, fun _ h => by cases h⟩
  | c :: l => by
    by_cases hc : s.Described c ∧ s.InRange addend c
    · obtain ⟨done, rest, rfl, hdone, hrest⟩ := exists_canBump s addend l
      refine ⟨c :: done, rest, rfl, fun k hk => ?_, hrest⟩
      rcases mem_cons.1 hk with rfl | hk
      · exact hc
      · exact hdone k hk
    · refine ⟨[], c :: l, rfl, fun _ h => absurd h not_mem_nil, fun k hk => ?_⟩
      cases hk
      exact hc

/-! ## A call -/

variable {offset : ℕ}

/-- What is taken back after an error at a cluster that is not the first. -/
theorem clustersOf_undo (h : offset / s.clusterSize < c) :
    0 < (c * s.clusterSize - offset : ℤ) ∧
      s.clustersOf offset (c * s.clusterSize - offset) =
        List.range' (offset / s.clusterSize) (c - offset / s.clusterSize) := by
  have hpos := s.clusterSize_pos
  have hlt : offset < c * s.clusterSize := (div_lt_iff_lt_mul hpos).1 h
  have hnat : (c * s.clusterSize - offset : ℤ).toNat = c * s.clusterSize - offset := by
    omega
  refine ⟨by rw [← cast_mul]; omega, ?_⟩
  rw [clustersOf, hnat, show offset + (c * s.clusterSize - offset) - 1 = c * s.clusterSize - 1 by
    omega]
  have hc : 1 ≤ c := by
    by_contra hzero
    rw [not_le, lt_one_iff] at hzero
    exact absurd (hzero ▸ h) (not_lt_zero _)
  have hdiv : (c * s.clusterSize - 1) / s.clusterSize = c - 1 := by
    refine Nat.div_eq_of_lt_le ?_ ?_
    · rw [Nat.sub_mul]
      omega
    · rw [Nat.sub_add_cancel hc]
      omega
  rw [hdiv, Nat.sub_add_cancel hc]

theorem clustersOf_nodup (s : RefcountState) (offset : ℕ) (length : ℤ) :
    (s.clustersOf offset length).Nodup := nodup_range'

/-- After an error in the first cluster there is nothing to take back. -/
theorem updateRefcount_first {calls} (s : RefcountState) :
    ∃ r, updateRefcount (calls + 1) s offset
      ((offset / s.clusterSize : ℕ) * s.clusterSize - offset) addend = some (s, r) := by
  have hle : offset / s.clusterSize * s.clusterSize ≤ offset := div_mul_le_self _ _
  rw [← cast_mul, updateRefcount]
  rcases hle.lt_or_eq with hlt | heq
  · exact ⟨_, if_pos (by omega)⟩
  · rw [heq, sub_self]
    exact ⟨_, by rw [if_neg (lt_irrefl 0), if_pos rfl]⟩

variable {length : ℤ}

/-- A call for clusters that all can be changed. -/
theorem updateRefcount_canBump {calls} (hl : s.Layout) (hpos : 0 < length)
    (h : s.CanBump addend (s.clustersOf offset length)) :
    updateRefcount (calls + 1) s offset length addend =
      some (bumps addend (s.clustersOf offset length) s, .ok ()) := by
  obtain ⟨cur, -, heq⟩ := updateLoop_done (updateRefcount calls) [] hl
    (s.clustersOf_nodup offset length) s.curOk_none h
  rw [append_nil] at heq
  rw [updateRefcount, if_neg (by omega), if_neg (by omega), heq]
  rfl

/-- What a call takes back : the clusters before the one at which the error happened. -/
theorem updateRefcount_undo (calls : ℕ) (hl : s.Layout) (hle : offset / s.clusterSize ≤ c)
    (h : s.CanBump addend (List.range' (offset / s.clusterSize) (c - offset / s.clusterSize))) :
    ∃ r, updateRefcount (calls + 1) s offset (c * s.clusterSize - offset) addend =
      some (bumps addend (List.range' (offset / s.clusterSize) (c - offset / s.clusterSize)) s,
        r) := by
  rcases hle.lt_or_eq with hlt | rfl
  · obtain ⟨hpos, hclusters⟩ := clustersOf_undo hlt
    rw [← hclusters] at h ⊢
    exact ⟨_, updateRefcount_canBump hl hpos h⟩
  · rw [Nat.sub_self]
    exact s.updateRefcount_first

/-- The cluster has bytes of the range. -/
def Intersects (s : RefcountState) (offset : ℕ) (length : ℤ) (c : ℕ) : Prop :=
  0 < length ∧ offset < (c + 1) * s.clusterSize ∧ c * s.clusterSize < offset + length

theorem mem_clustersOf (hpos : 0 < length) :
    c ∈ s.clustersOf offset length ↔ s.Intersects offset length c := by
  have hcs := s.clusterSize_pos
  have hlast : c ≤ (offset + length.toNat - 1) / s.clusterSize ↔
      (c * s.clusterSize : ℤ) < offset + length := by
    rw [le_div_iff_mul_le hcs]
    omega
  have hfirst : offset / s.clusterSize ≤ c ↔ offset < (c + 1) * s.clusterSize := by
    rw [← Nat.lt_succ_iff, Nat.div_lt_iff_lt_mul hcs]
  rw [clustersOf, mem_range'_1, Intersects, ← hlast]
  omega

variable {done : List ℕ}

/-- What `done` has changed can be taken back. -/
theorem CanBump.neg (hl : s.Layout) (hnodup : done.Nodup) (h : s.CanBump addend done) :
    (bumps addend done s).CanBump (-addend) done := by
  intro k hk
  have hget := getRefcount_bumps hl hnodup h k
  rw [if_pos hk] at hget
  have hlt := s.getRefcount_lt k
  refine ⟨(sameTable_bumps addend done s).described.2 (h k hk).1, ?_, ?_⟩ <;> omega

theorem getRefcount_undone (hl : s.Layout) (hnodup : done.Nodup) (h : s.CanBump addend done)
    (k : ℕ) : (bumps (-addend) done (bumps addend done s)).getRefcount k = s.getRefcount k := by
  have hget := getRefcount_bumps hl hnodup h k
  have hback := getRefcount_bumps ((sameTable_bumps addend done s).layout hl) hnodup
    (h.neg hl hnodup) k
  split at hget <;> rename_i hk
  · rw [if_pos hk] at hback
    omega
  · rw [if_neg hk] at hback
    omega

theorem undone_freeClusterIndex (hl : s.Layout) (hnodup : done.Nodup) (h : s.CanBump addend done) :
    (bumps (-addend) done (bumps addend done s)).freeClusterIndex = (done.filter fun k =>
      s.getRefcount k + addend = 0 ∨ s.getRefcount k = 0).foldl min s.freeClusterIndex := by
  have hback : ∀ k ∈ done, decide (((bumps addend done s).getRefcount k : ℤ) + -addend = 0) =
      decide (s.getRefcount k = 0) := by
    intro k hk
    rw [getRefcount_bumps hl hnodup h, if_pos hk, decide_eq_decide]
    omega
  rw [bumps_freeClusterIndex ((sameTable_bumps addend done s).layout hl) hnodup (h.neg hl hnodup),
    filter_congr hback, bumps_freeClusterIndex hl hnodup h]
  refine eq_of_forall_le_iff fun b => ?_
  simp only [le_foldl_min, mem_filter, decide_eq_true_eq, and_assoc, ← forall_and, and_imp]
  exact and_congr_right fun _ => forall_congr' fun k => by tauto

/-- The outcome of a call that succeeds. -/
structure Updated (s : RefcountState) (offset : ℕ) (length addend : ℤ) (s' : RefcountState) :
    Prop where
  same : SameTable s s'
  changed : ∀ k, s.Intersects offset length k → (s'.getRefcount k : ℤ) = s.getRefcount k + addend
  other : ∀ k, ¬ s.Intersects offset length k → s'.getRefcount k = s.getRefcount k
  free : ∀ k, s.Intersects offset length k → s.getRefcount k + addend = 0 → s'.freeClusterIndex ≤ k
  index : 0 < length → s'.freeClusterIndex = ((s.clustersOf offset length).filter fun k =>
    s.getRefcount k + addend = 0).foldl min s.freeClusterIndex

/-- The outcome of a call that finds a count which would leave its range, that of `c`. The clusters
before `c` are changed and changed back. -/
structure Undone (s : RefcountState) (offset : ℕ) (length addend : ℤ) (c : ℕ)
    (s' : RefcountState) : Prop where
  same : SameTable s s'
  intersects : s.Intersects offset length c
  not_inRange : ¬ s.InRange addend c
  count : ∀ k, s'.getRefcount k = s.getRefcount k
  free : ∀ k < c, s.Intersects offset length k →
    s.getRefcount k + addend = 0 ∨ s.getRefcount k = 0 → s'.freeClusterIndex ≤ k
  index : s'.freeClusterIndex = (((s.clustersOf offset length).takeWhile fun k =>
    s.InRange addend k).filter fun k => s.getRefcount k + addend = 0 ∨ s.getRefcount k = 0).foldl
      min s.freeClusterIndex

theorem updateRefcount_updated (calls : ℕ) (hl : s.Layout) (hpos : 0 < length)
    (h : s.CanBump addend (s.clustersOf offset length)) :
    ∃ s', updateRefcount (calls + 1) s offset length addend = some (s', .ok ()) ∧
      s.Updated offset length addend s' := by
  have hnodup := s.clustersOf_nodup offset length
  have hget := getRefcount_bumps hl hnodup h
  refine ⟨_, updateRefcount_canBump hl hpos h, sameTable_bumps _ _ _, fun k hk => ?_,
    fun k hk => ?_, fun k hk => (bumps_freeClusterIndex_le hl hnodup h).2 k
      ((mem_clustersOf hpos).2 hk), fun _ => bumps_freeClusterIndex hl hnodup h⟩
  · rw [hget, if_pos ((mem_clustersOf hpos).2 hk)]
  · have hk' := hget k
    rw [if_neg fun hmem => hk ((mem_clustersOf hpos).1 hmem)] at hk'
    exact_mod_cast hk'

/-- The clusters that were done before an error at `c`. -/
theorem clustersOf_split (h : s.clustersOf offset length = done ++ c :: rest) :
    offset / s.clusterSize ≤ c ∧
      done = List.range' (offset / s.clusterSize) (c - offset / s.clusterSize) := by
  rw [clustersOf, range'_eq_append_iff] at h
  obtain ⟨k, hk, hdone, hrest⟩ := h
  rw [eq_comm, range'_eq_cons_iff] at hrest
  obtain ⟨hc, -, -⟩ := hrest
  refine ⟨by omega, ?_⟩
  rw [hdone, ← hc, Nat.add_sub_cancel_left, Nat.mul_one]

theorem intersects_of_split (hpos : 0 < length)
    (h : s.clustersOf offset length = done ++ c :: rest) : s.Intersects offset length c :=
  (mem_clustersOf hpos).1 (h ▸ mem_append_right _ mem_cons_self)

theorem nodup_of_split (h : s.clustersOf offset length = done ++ c :: rest) :
    done.Nodup ∧ c ∉ done := by
  have hnodup : (done ++ c :: rest).Nodup := h ▸ s.clustersOf_nodup offset length
  exact ⟨(nodup_append.1 hnodup).1, fun hc => (nodup_append.1 hnodup).2.2 c hc c mem_cons_self rfl⟩

theorem mem_done {k} (hpos : 0 < length) (h : s.clustersOf offset length = done ++ c :: rest)
    (hk : k < c) (hint : s.Intersects offset length k) : k ∈ done := by
  have hkmem := (mem_clustersOf hpos).2 hint
  rw [clustersOf, mem_range'_1] at hkmem
  rw [(clustersOf_split h).2, mem_range'_1]
  omega

/-- A count that would leave its range stops the loop, and the clusters before it are changed
back. -/
theorem updateRefcount_undone (calls : ℕ) (hl : s.Layout) (hpos : 0 < length)
    (hsplit : s.clustersOf offset length = done ++ c :: rest) (hdone : s.CanBump addend done)
    (hd : s.Described c) (hno : ¬ s.InRange addend c) :
    ∃ s', updateRefcount (calls + 2) s offset length addend = some (s', .error .einval) ∧
      s.Undone offset length addend c s' := by
  have hmem := intersects_of_split hpos hsplit
  obtain ⟨hnodup, hc⟩ := nodup_of_split hsplit
  have hsame := sameTable_bumps addend done s
  obtain ⟨cur, hcur, hloop⟩ := updateLoop_done (updateRefcount (calls + 1)) (c :: rest) hl
    hnodup s.curOk_none hdone
  have hno' : ¬ (bumps addend done s).InRange addend c := by
    have hget := getRefcount_bumps hl hnodup hdone c
    rw [if_neg hc] at hget
    rwa [InRange, hget]
  rw [updateLoop_described (hsame.layout hl) hcur (hsame.described.2 hd), if_neg hno'] at hloop
  obtain ⟨hle, hrange⟩ := clustersOf_split hsplit
  have hback := hdone.neg hl hnodup
  have hle' : offset / (bumps addend done s).clusterSize ≤ c := by rwa [hsame.clusterSize]
  obtain ⟨r, hundo⟩ := updateRefcount_undo calls (hsame.layout hl) hle'
    (by rwa [hsame.clusterSize, ← hrange])
  rw [hsame.clusterSize, ← hrange] at hundo
  have hindex := undone_freeClusterIndex hl hnodup hdone
  have hwhile : (s.clustersOf offset length).takeWhile (fun k => decide (s.InRange addend k)) =
      done := by
    rw [hsplit, takeWhile_append_of_pos fun k hk => decide_eq_true (hdone k hk).2,
      takeWhile_cons_of_neg (by rwa [decide_eq_true_eq]), append_nil]
  refine ⟨_, ?_, hsame.trans (sameTable_bumps (-addend) done _), hmem, hno,
    getRefcount_undone hl hnodup hdone, fun k hk hint hzero => ?_, by rw [hwhile, hindex]⟩
  · rw [updateRefcount, if_neg (by omega), if_neg (by omega), hsplit, hloop, bind_some]
    dsimp only
    rw [hsame.clusterSize, hundo]
    rfl
  · exact (le_foldl_min.1 hindex.le).2 k
      (mem_filter.2 ⟨mem_done hpos hsplit hk hint, decide_eq_true hzero⟩)

/-- When there are refcount blocks for all clusters, all of them are changed or none is. -/
theorem updateRefcount_described {calls} (hl : s.Layout) (hpos : 0 < length)
    (hd : ∀ k, s.Intersects offset length k → s.Described k) :
    (∃ s', updateRefcount (calls + 2) s offset length addend = some (s', .ok ()) ∧
      s.Updated offset length addend s') ∨
    ∃ s' c, updateRefcount (calls + 2) s offset length addend = some (s', .error .einval) ∧
      s.Undone offset length addend c s' := by
  obtain ⟨done, rest, hsplit, hdone, hrest⟩ := exists_canBump s addend (s.clustersOf offset length)
  cases rest with
  | nil =>
    rw [append_nil] at hsplit
    exact .inl (updateRefcount_updated _ hl hpos (hsplit ▸ hdone))
  | cons c rest =>
    have hmem := intersects_of_split hpos hsplit
    obtain ⟨s', hs', hundone⟩ := updateRefcount_undone calls hl hpos hsplit hdone (hd c hmem)
      fun hr => hrest c rfl ⟨hd c hmem, hr⟩
    exact .inr ⟨s', c, hs', hundone⟩

end RefcountState

end QemuArm
