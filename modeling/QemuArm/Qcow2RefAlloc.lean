import QemuArm.Qcow2RefDescribe

/-!
# What the allocation of a refcount block changes

A new refcount block is described by itself, or by another block, for which one may have to be
allocated first; two such detours are enough, as the comment in `alloc_refcount_block` says
(`Shallow`). In the end the clusters that were taken had no refcount before, and of the others only
those of a table that was replaced are changed (`allocRefcountBlock_spec`).

Table indices are 32 bits wide in `alloc_refcount_block`. The results here are for clusters whose
index fits, which for clusters of 64 kB and more are all of those that an offset can name.
-/

namespace QemuArm

open List Option Function Nat

namespace RefcountState

variable {s s' s₂ : RefcountState} {c d newBlock : ℕ} {update : Update}

/-! ## The search -/

theorem le_freeCluster (s : RefcountState) : ∀ n i : ℕ, i ≤ s.freeCluster n i
  | 0, _ => le_rfl
  | n + 1, i => by
    rw [freeCluster]
    split
    · exact le_rfl
    · exact (le_succ i).trans (le_freeCluster s n (i + 1))

theorem lt_of_getRefcount (h : s.getRefcount c ≠ 0) :
    c < s.refcountTable.length * s.blockClusters :=
  (div_lt_iff_lt_mul s.blockClusters_pos).1 (described_of_getRefcount h).lt

theorem freeCluster_le (s : RefcountState) : ∀ n i : ℕ,
    s.freeCluster n i ≤ max i (s.refcountTable.length * s.blockClusters)
  | 0, _ => le_max_left _ _
  | n + 1, i => by
    rw [freeCluster]
    split
    · exact le_max_left _ _
    · next h =>
      have hlt := lt_of_getRefcount h
      have hle := freeCluster_le s n (i + 1)
      omega

/-- The clusters that the search has passed are in use. -/
theorem freeCluster_passed (s : RefcountState) : ∀ {n i j : ℕ}, i ≤ j → j < s.freeCluster n i →
    s.getRefcount j ≠ 0
  | 0, i, j, hle, hlt => absurd (hle.trans_lt hlt) (lt_irrefl i)
  | n + 1, i, j, hle, hlt => by
    rw [freeCluster] at hlt
    split at hlt
    · omega
    · next h =>
      rcases hle.lt_or_eq with hlt' | rfl
      · exact freeCluster_passed s hlt' hlt
      · exact h

theorem freeCluster_eq (n : ℕ) (h : s.getRefcount c = 0) : s.freeCluster n c = c := by
  cases n with
  | zero => rfl
  | succ n => rw [freeCluster, if_pos h]

/-- The cluster that the next search finds. -/
def nextFree (s : RefcountState) : ℕ :=
  s.freeCluster (s.refcountTable.length * s.blockClusters) s.freeClusterIndex

/-- The state after the search for a new refcount block. -/
def searched (s : RefcountState) : RefcountState :=
  { s with freeClusterIndex := s.nextFree + 1, taken := s.nextFree :: s.taken }

theorem getRefcount_nextFree (s : RefcountState) : s.getRefcount s.nextFree = 0 :=
  s.getRefcount_freeCluster _ _ (by omega)

/-- The search stays among the clusters whose table index has 32 bits, `d` more times. -/
def Near (s : RefcountState) (d : ℕ) : Prop :=
  max s.freeClusterIndex (s.refcountTable.length * s.blockClusters) + d < 2 ^ 32 * s.blockClusters

theorem Near.nextFree_lt (h : s.Near d) : s.nextFree / s.blockClusters < 2 ^ 32 := by
  rw [div_lt_iff_lt_mul s.blockClusters_pos]
  exact lt_of_le_of_lt ((s.freeCluster_le _ _).trans (le_add_right _ d)) h

theorem Near.searched (h : s.Near (d + 1)) : s.searched.Near d := by
  have hle : s.nextFree ≤ _ := s.freeCluster_le _ _
  unfold Near at h ⊢
  change max (s.nextFree + 1) (s.refcountTable.length * s.blockClusters) + d <
    2 ^ 32 * s.blockClusters
  omega

/-- How many detours it takes at most until a new block describes itself. -/
def Shallow (s : RefcountState) (c : ℕ) : ℕ → Prop
  | 0 => s.nextFree / s.blockClusters = c / s.blockClusters
  | 1 => s.freeClusterIndex = c + 1
  | _ + 2 => True

/-- Behind a cluster that was just found, the search either finds one of the same block, or the
first one of a block that is missing too. -/
theorem nextFree_mod (hc : s.freeClusterIndex = c + 1)
    (hother : s.nextFree / s.blockClusters ≠ c / s.blockClusters) (hd : ¬ s.Described s.nextFree) :
    s.nextFree % s.blockClusters = 0 := by
  by_contra hmod
  have hle : c + 1 ≤ s.nextFree := hc ▸ s.le_freeCluster _ _
  obtain ⟨q, hq⟩ := @exists_eq _ (s.nextFree / s.blockClusters)
  have hdiv := Nat.div_add_mod' s.nextFree s.blockClusters
  have hlt := Nat.mod_lt s.nextFree s.blockClusters_pos
  have hq_lt : c / s.blockClusters < q :=
    lt_of_le_of_ne (hq ▸ Nat.div_le_div_right (by omega)) fun h => hother (hq ▸ h.symm)
  have hc_lt : c < q * s.blockClusters := (Nat.div_lt_iff_lt_mul s.blockClusters_pos).1 hq_lt
  rw [← hq] at hdiv
  have hpred : (s.nextFree - 1) / s.blockClusters = q :=
    (Nat.div_eq_iff s.blockClusters_pos).2 (by omega)
  have hzero : s.getRefcount (s.nextFree - 1) = 0 := by
    refine getRefcount_eq_zero ?_
    rwa [Described, hpred, hq]
  refine s.freeCluster_passed (n := s.refcountTable.length * s.blockClusters)
    (i := s.freeClusterIndex) ?_ ?_ hzero
  · omega
  · change _ < s.nextFree
    omega

/-- Behind a cluster of a missing block the search goes on in that block. -/
theorem nextFree_searched (hd : ¬ s.Described s.nextFree)
    (hmod : (s.nextFree + 1) % s.blockClusters ≠ 0) :
    s.searched.nextFree / s.blockClusters = s.nextFree / s.blockClusters := by
  have hdiv : (s.nextFree + 1) / s.blockClusters = s.nextFree / s.blockClusters := by
    rw [Nat.succ_div, if_neg fun hdvd => hmod (Nat.mod_eq_zero_of_dvd hdvd), add_zero]
  have hzero : s.searched.getRefcount (s.nextFree + 1) = 0 := by
    refine getRefcount_eq_zero ?_
    change ¬ s.blockOf ((s.nextFree + 1) / s.blockClusters) ≠ 0
    rwa [hdiv]
  have hnext : s.searched.nextFree = s.nextFree + 1 := freeCluster_eq _ hzero
  rw [hnext, hdiv]

theorem Shallow.searched (h : s.Shallow c d)
    (hother : s.nextFree / s.blockClusters ≠ c / s.blockClusters) (hd : ¬ s.Described s.nextFree) :
    ∃ d', d = d' + 1 ∧ s.searched.Shallow s.nextFree d' := by
  match d, h with
  | 0, h => exact absurd h hother
  | 1, h =>
    refine ⟨0, rfl, ?_⟩
    have hmod := nextFree_mod h hother hd
    have hb := s.blockClusters_eq
    have h64 := s.tableEntries_ge
    refine nextFree_searched hd ?_
    rw [Nat.add_mod, hmod, zero_add, Nat.mod_mod, Nat.mod_eq_of_lt (by omega)]
    exact one_ne_zero
  | 2, _ => exact ⟨1, rfl, rfl⟩
  | d + 3, _ => exact ⟨d + 2, rfl, trivial⟩

/-! ## The cluster size -/

/-- Calls leave the cluster size as it is. -/
def KeepsBits (update : Update) : Prop :=
  ∀ s offset length addend s' r, update s offset length addend = some (s', r) →
    s'.clusterBits = s.clusterBits

variable {r : Except RefcountError ℕ}

theorem newRefcountBlock_clusterBits (hu : KeepsBits update)
    (h : s.newRefcountBlock update c = some (s', r)) : s'.clusterBits = s.clusterBits := by
  unfold newRefcountBlock allocClusterNoref at h
  dsimp only at h
  split at h
  · cases h
    rfl
  · obtain ⟨⟨s₁, r₁⟩, hupdate, h⟩ := map_eq_some_iff.1 h
    have hbits := hu _ _ _ _ _ _ hupdate
    cases r₁ with
    | error e | ok u =>
      cases h
      exact hbits

theorem allocRefcountBlock_clusterBits (hu : KeepsBits update)
    (h : s.allocRefcountBlock update c = some (s', r)) : s'.clusterBits = s.clusterBits := by
  unfold allocRefcountBlock at h
  dsimp only at h
  split at h
  · cases h
    rfl
  · obtain ⟨⟨s₁, r₁⟩, hnew, h⟩ := bind_eq_some_iff.1 h
    have hbits := newRefcountBlock_clusterBits hu hnew
    cases r₁ with
    | error e =>
      cases h
      exact hbits
    | ok newBlock =>
      dsimp only at h
      split at h
      · cases h
        exact hbits
      · obtain ⟨r₂, -, h⟩ := bind_eq_some_iff.1 h
        cases r₂ with
        | error e =>
          cases h
          exact hbits
        | ok g =>
          obtain ⟨⟨s₂, r₂⟩, hfree, h⟩ := map_eq_some_iff.1 h
          cases h
          exact (hu _ _ _ _ _ _ hfree).trans hbits

theorem loadBlock_clusterBits (hu : KeepsBits update) {cur}
    (h : s.loadBlock update cur c = some (s', r)) : s'.clusterBits = s.clusterBits := by
  unfold loadBlock at h
  split at h
  · split at h
    · cases h
      rfl
    · exact allocRefcountBlock_clusterBits hu h
  · exact allocRefcountBlock_clusterBits hu h

theorem updateLoop_clusterBits (hu : KeepsBits update) {addend : ℤ} :
    ∀ {l : List ℕ} {cur : Option (ℕ × ℕ)} {s s' : RefcountState} {r : Option (ℕ × RefcountError)},
      updateLoop update addend l cur s = some (s', r) → s'.clusterBits = s.clusterBits
  | [], _, _, _, _, h => by
    cases h
    rfl
  | c :: l, cur, s, s', r, h => by
    obtain ⟨⟨s₁, r₁⟩, hload, h⟩ := bind_eq_some_iff.1 h
    have hbits := loadBlock_clusterBits hu hload
    cases r₁ with
    | error e =>
      cases h
      exact hbits
    | ok block =>
      dsimp only at h
      split at h
      · cases h
        exact hbits
      · have hrest := updateLoop_clusterBits hu h
        rw [hrest, ← hbits]
        split <;> rfl

theorem updateRefcount_clusterBits : ∀ calls : ℕ, KeepsBits (updateRefcount calls)
  | 0 => fun _ _ _ _ _ _ h => by cases h
  | calls + 1 => fun s offset length addend s' r h => by
    have hu := updateRefcount_clusterBits calls
    rw [updateRefcount] at h
    split at h
    · cases h
      rfl
    split at h
    · cases h
      rfl
    obtain ⟨⟨s₁, r₁⟩, hloop, h⟩ := bind_eq_some_iff.1 h
    have hbits := updateLoop_clusterBits hu hloop
    rcases r₁ with _ | ⟨k, e⟩
    · cases h
      exact hbits
    · obtain ⟨⟨s₂, r₂⟩, hundo, h⟩ := map_eq_some_iff.1 h
      cases h
      exact (hu _ _ _ _ _ _ hundo).trans hbits

/-! ## The new block -/

theorem newRefcountBlock_eq : s.newRefcountBlock update c =
    if s.nextFree / s.blockClusters = c / s.blockClusters then
      some ({ s.searched with
        blocks := Function.update s.blocks s.nextFree
          (Function.update (fun _ => 0) (s.nextFree % s.blockClusters) 1) }, .ok s.nextFree)
    else
      (update s.searched (s.nextFree * s.clusterSize) s.clusterSize 1).map fun
        | (s₁, .error e) => (s₁, .error e)
        | (s₁, .ok ()) =>
          ({ s₁ with blocks := Function.update s₁.blocks s.nextFree fun _ => 0 },
            .ok s.nextFree) := rfl

/-- The new block `newBlock` for the cluster `c` was allocated. -/
structure NewOk (s s₂ : RefcountState) (c newBlock : ℕ) : Prop where
  clusterBits : s₂.clusterBits = s.clusterBits
  refcountTable : s₂.refcountTable = s.refcountTable
  refcountTableOffset : s₂.refcountTableOffset = s.refcountTableOffset
  taken : s₂.taken = newBlock :: s.taken
  unused : s.getRefcount newBlock = 0
  count : ∀ k ≠ newBlock, s₂.getRefcount k = s.getRefcount k
  place : newBlock / s.blockClusters = c / s.blockClusters ∧
      s₂.blocks newBlock = Function.update (fun _ => 0) (newBlock % s.blockClusters) 1 ∨
    newBlock / s.blockClusters ≠ c / s.blockClusters ∧ s.Described newBlock ∧
      s₂.getRefcount newBlock = 1 ∧ s₂.blocks newBlock = fun _ => 0

/-- The contents of a cluster that is not a refcount block do not matter. -/
theorem getRefcount_of_blocks (hbits : s'.clusterBits = s.clusterBits)
    (htable : s'.refcountTable = s.refcountTable)
    (hblocks : ∀ i, s.blockOf i ≠ 0 → s'.blocks (s.blockOf i) = s.blocks (s.blockOf i)) (k : ℕ) :
    s'.getRefcount k = s.getRefcount k := by
  unfold getRefcount
  rw [blockOf_congr htable, blockClusters_congr hbits]
  by_cases hzero : s.blockOf (k / s.blockClusters) = 0
  · rw [if_pos hzero, if_pos hzero]
  · rw [if_neg hzero, if_neg hzero, hblocks _ hzero]

/-- The new block describes itself, or another one does. -/
theorem newRefcountBlock_found (hl : s.Layout) (calls : ℕ)
    (h : s.nextFree / s.blockClusters = c / s.blockClusters ∨ s.Described s.nextFree) :
    ∃ s₂, s.newRefcountBlock (updateRefcount (calls + 1)) c = some (s₂, .ok s.nextFree) ∧
      ((∀ i, s.blockOf i ≠ 0 → s.blockOf i ≠ s.nextFree) → NewOk s s₂ c s.nextFree) := by
  have hfree := s.getRefcount_nextFree
  rw [newRefcountBlock_eq]
  by_cases hsame : s.nextFree / s.blockClusters = c / s.blockClusters
  · rw [if_pos hsame]
    refine ⟨_, rfl, fun hno => ⟨rfl, rfl, rfl, rfl, hfree, fun k _ => ?_,
      .inl ⟨hsame, update_self _ _ _⟩⟩⟩
    refine getRefcount_of_blocks ?_ ?_ (fun i hi => ?_) k
    · rfl
    · rfl
    · exact update_of_ne (hno i hi) _ _
  · have hd : s.searched.Described s.nextFree := h.resolve_left hsame
    have hl' : s.searched.Layout := ⟨hl.length_lt, hl.inj⟩
    have hzero : s.searched.getRefcount s.nextFree = 0 := hfree
    have hr : s.searched.InRange 1 s.nextFree := by
      rw [InRange, hzero]
      decide
    have hclusters : s.searched.clustersOf (s.nextFree * s.clusterSize) s.clusterSize =
        [s.nextFree] := s.searched.clustersOf_one s.nextFree
    have hcan : s.searched.CanBump 1 [s.nextFree] := by
      intro k hk
      rw [mem_singleton] at hk
      exact hk ▸ ⟨hd, hr⟩
    have hpos := s.clusterSize_pos
    have hupdate : updateRefcount (calls + 1) s.searched (s.nextFree * s.clusterSize) s.clusterSize
        1 = some (bumps 1 [s.nextFree] s.searched, .ok ()) := by
      rw [← hclusters]
      exact updateRefcount_canBump hl' (by omega) (by rwa [hclusters])
    rw [if_neg hsame, hupdate]
    have hbump := sameTable_bump 1 s.searched s.nextFree
    have hget := getRefcount_bump hl' hd hr
    refine ⟨_, rfl, fun hno => ?_⟩
    -- the zeroes are not seen, the cluster is no refcount block
    have hseen : ∀ k, RefcountState.getRefcount
        { bump 1 s.searched s.nextFree with
          blocks :=
            update (bump 1 s.searched s.nextFree).blocks s.nextFree fun _ => 0 } k =
        (bump 1 s.searched s.nextFree).getRefcount k := by
      refine getRefcount_of_blocks ?_ ?_ fun i hi => ?_
      · rfl
      · rfl
      · exact update_of_ne (hno i hi) _ _
    refine ⟨hbump.clusterBits, hbump.refcountTable, hbump.refcountTableOffset,
      hbump.taken, hfree, fun k hk => ?_,
      .inr ⟨hsame, hd, ?_, update_self _ _ _⟩⟩
    · have hk' := hget k
      rw [if_neg hk] at hk'
      exact (hseen k).trans (by exact_mod_cast hk')
    · have hk' := hget s.nextFree
      rw [if_pos rfl, hzero] at hk'
      exact (hseen _).trans (by exact_mod_cast hk')

variable {calls : ℕ}

/-- A call for one cluster without a block ends as the allocation of the block does. -/
theorem updateRefcount_missing {r} (hd : ¬ s.Described c) (hidx : c / s.blockClusters < 2 ^ 32) :
    updateRefcount (calls + 2) s (c * s.clusterSize) s.clusterSize 1 = some (s', r) ↔
      ∃ e, s.allocRefcountBlock (updateRefcount (calls + 1)) c = some (s', .error e) ∧
        r = .error e := by
  have hpos := s.clusterSize_pos
  -- there is nothing to take back
  have hundo : ∀ s₁ : RefcountState, s₁.clusterBits = s.clusterBits →
      updateRefcount (calls + 1) s₁ (c * s.clusterSize)
        (c * s₁.clusterSize - (c * s.clusterSize : ℕ))
        (-1) = some (s₁, .ok ()) := by
    intro s₁ hbits
    rw [clusterSize_congr hbits, cast_mul, sub_self, updateRefcount, if_neg (lt_irrefl 0),
      if_pos rfl]
  rw [updateRefcount, if_neg (by omega), if_neg (by omega), clustersOf_one]
  constructor
  · intro h
    obtain ⟨⟨s₁, r₁⟩, hloop, h⟩ := bind_eq_some_iff.1 h
    obtain ⟨e, halloc, rfl⟩ := updateLoop_missing s.curOk_none hd hidx hloop
    have hbits := allocRefcountBlock_clusterBits (updateRefcount_clusterBits _) halloc
    dsimp only at h
    rw [hundo s₁ hbits] at h
    cases h
    exact ⟨e, halloc, rfl⟩
  · rintro ⟨e, halloc, rfl⟩
    have hbits := allocRefcountBlock_clusterBits (updateRefcount_clusterBits _) halloc
    have hloop : updateLoop (updateRefcount (calls + 1)) 1 [c] none s = some (s', some (c, e)) := by
      rw [updateLoop, loadBlock, halloc]
      rfl
    rw [hloop, bind_some]
    dsimp only
    rw [hundo s' hbits]
    rfl

/-- The new block is described by a block that is missing too. -/
theorem newRefcountBlock_detour (hother : s.nextFree / s.blockClusters ≠ c / s.blockClusters)
    (hd : ¬ s.Described s.nextFree) (hidx : s.nextFree / s.blockClusters < 2 ^ 32) :
    s.newRefcountBlock (updateRefcount (calls + 2)) c = some (s', r) ↔
      ∃ e, s.searched.allocRefcountBlock (updateRefcount (calls + 1)) s.nextFree =
        some (s', .error e) ∧ r = .error e := by
  rw [newRefcountBlock_eq, if_neg hother]
  constructor
  · intro h
    obtain ⟨⟨s₁, r₁⟩, hupdate, h⟩ := map_eq_some_iff.1 h
    obtain ⟨e, halloc, rfl⟩ := (updateRefcount_missing (s := s.searched) hd hidx).1 hupdate
    cases h
    exact ⟨e, halloc, rfl⟩
  · rintro ⟨e, halloc, rfl⟩
    have hupdate := (updateRefcount_missing (s := s.searched) (r := .error e) hd hidx).2
      ⟨e, halloc, rfl⟩
    change updateRefcount (calls + 2) s.searched (s.nextFree * s.clusterSize) s.clusterSize 1 = _
      at hupdate
    rw [hupdate]
    rfl

/-! ## What has changed -/

/-- The effect of an allocation. -/
structure AllocEffect (s s' : RefcountState) : Prop where
  clusterBits : s'.clusterBits = s.clusterBits
  layout : s'.Layout
  described : ∀ k, s.Described k → s'.Described k
  /-- Clusters in use stay so, but a table may be replaced. -/
  keeps : ∀ k, s.getRefcount k ≠ 0 → s'.getRefcount k = s.getRefcount k ∨
    s.InTable k ∧ s'.getRefcount k + 1 = s.getRefcount k
  free : ∀ k, s.getRefcount k ≠ 0 → s'.getRefcount k = 0 → s'.freeClusterIndex ≤ k

/-- Of the clusters without references only those that are taken get a count. -/
def Takes (s s' : RefcountState) : Prop :=
  ∃ l, s'.taken = l ++ s.taken ∧ (∀ k ∈ l, s.getRefcount k = 0) ∧
    ∀ k ∉ l, s.getRefcount k = 0 → s'.getRefcount k = 0

variable {k : ℕ}

namespace NewOk

section

variable (h : NewOk s s₂ c newBlock)
include h

theorem blockClusters : s₂.blockClusters = s.blockClusters := blockClusters_congr h.clusterBits

theorem blockOf (i : ℕ) : s₂.blockOf i = s.blockOf i := blockOf_congr h.refcountTable i

theorem described : s₂.Described k ↔ s.Described k := described_congr h.clusterBits h.refcountTable

theorem ne_blockOf (hs : s.Consistent) {i : ℕ} (hi : s.blockOf i ≠ 0) : s.blockOf i ≠ newBlock :=
  fun heq => hs.block i hi (heq ▸ h.unused)

theorem ne_zero (hs : s.Consistent) : newBlock ≠ 0 :=
  fun heq => hs.header (heq ▸ h.unused)

/-- The new block has no counts but its own. -/
theorem blocks_eq_zero (hk : k ≠ newBlock) (hblock : k / s.blockClusters = c / s.blockClusters) :
    s₂.blocks newBlock (k % s.blockClusters) = 0 := by
  rcases h.place with ⟨hsame, hself⟩ | ⟨-, -, -, hzero⟩
  · rw [hself, update_of_ne]
    intro hmod
    refine hk ?_
    rw [← div_add_mod k s.blockClusters, hblock, ← hsame, hmod, div_add_mod]
  · rw [hzero]

/-- The block alone is allocated, as when the table would get too large. -/
theorem effect (hs : s.Consistent) : AllocEffect s s₂ where
  clusterBits := h.clusterBits
  layout := hs.congr h.refcountTable
  described _ hk := h.described.2 hk
  keeps k hk := .inl (h.count k fun heq => hk (heq ▸ h.unused))
  free k hk hzero := by
    have hne : k ≠ newBlock := fun heq => hk (heq ▸ h.unused)
    exact absurd (h.count k hne ▸ hzero) hk

/-- The new block is all that is taken. -/
theorem takes (htaken : s'.taken = s₂.taken)
    (hcount : ∀ k ≠ newBlock, s'.getRefcount k = s.getRefcount k) : Takes s s' := by
  refine ⟨[newBlock], htaken.trans h.taken, fun k hk => ?_, fun k hk hzero => ?_⟩
  · rw [mem_singleton.1 hk]
    exact h.unused
  · rw [hcount k fun heq => hk (mem_singleton.2 heq), hzero]

/-- The block is put into the table. -/
theorem effect_hookup (hs : s.Consistent) (hd : ¬ s.Described c)
    (hti : c / s.blockClusters < s.refcountTable.length) :
    AllocEffect s (s₂.hookup (c / s.blockClusters) newBlock) ∧
      Takes s (s₂.hookup (c / s.blockClusters) newBlock) := by
  obtain ⟨s₃, hs₃⟩ := @exists_eq _ (s₂.hookup (c / s.blockClusters) newBlock)
  have hb : s₃.blockClusters = s.blockClusters := by
    rw [← h.blockClusters, hs₃]
    rfl
  have hblocks : s₃.blocks = s₂.blocks := hs₃ ▸ rfl
  have htable : s₃.refcountTable = s.refcountTable.set (c / s.blockClusters) newBlock := by
    rw [← h.refcountTable, hs₃]
    rfl
  have hblockOf : ∀ i, s₃.blockOf i =
      if i = c / s.blockClusters then newBlock else s.blockOf i := by
    intro i
    rw [RefcountState.blockOf, htable, getD_eq_getElem?_getD, getElem?_set]
    by_cases hi : i = c / s.blockClusters
    · rw [if_pos hi.symm, if_pos hti, if_pos hi, getD_some]
    · rw [if_neg (Ne.symm hi), if_neg hi, RefcountState.blockOf, getD_eq_getElem?_getD]
  have hcount : ∀ k ≠ newBlock, s₃.getRefcount k = s.getRefcount k := by
    intro k hk
    by_cases hi : k / s.blockClusters = c / s.blockClusters
    · have hno : ¬ s.Described k := by rwa [Described, hi]
      have hd₃ : s₃.Described k := by
        rw [Described, hb, hblockOf, if_pos hi]
        exact h.ne_zero hs
      rw [getRefcount_eq_zero hno, hd₃.getRefcount, hb, hblockOf, if_pos hi, hblocks,
        h.blocks_eq_zero hk hi]
      rfl
    · rw [← h.count k hk]
      unfold getRefcount
      rw [hb, hblockOf, if_neg hi, h.blockClusters, h.blockOf, hblocks]
  rw [← hs₃]
  refine ⟨⟨hs₃ ▸ h.clusterBits, ⟨?_, fun i j heq hne => ?_⟩, fun k hk => ?_,
    fun k hk => .inl (hcount k fun heq => hk (heq ▸ h.unused)), fun k hk hzero => ?_⟩,
    h.takes (hs₃ ▸ rfl) hcount⟩
  · rw [htable, length_set]
    exact hs.length_lt
  · rw [hblockOf] at heq hne
    rw [hblockOf] at heq
    split_ifs at heq hne with hi hj hj
    · rw [hi, hj]
    · exact absurd heq.symm (h.ne_blockOf hs (heq ▸ hne))
    · exact absurd heq (h.ne_blockOf hs hne)
    · exact hs.inj i j heq hne
  · have hi : k / s.blockClusters ≠ c / s.blockClusters := by
      intro heq
      rw [Described, heq] at hk
      exact hd hk
    rwa [Described, hb, hblockOf, if_neg hi]
  · have hne : k ≠ newBlock := fun heq => hk (heq ▸ h.unused)
    exact absurd (hcount k hne ▸ hzero) hk

end

end NewOk

namespace Grown

variable {g : Growth}

section

variable (h : Grown s s₂ c newBlock g) (hn : NewOk s s₂ c newBlock)
include h hn

/-- The blocks of the old table are still in use. -/
theorem count_old (hk : s.getRefcount k ≠ 0) :
    (s₂.switchTable newBlock g).getRefcount k = s.getRefcount k := by
  have hb := h.new.blockClusters
  have hd := described_of_getRefcount hk
  have hblock : (s₂.switchTable newBlock g).blockOf (k / s₂.blockClusters) =
      s.blockOf (k / s.blockClusters) := by
    rw [hb, h.blockOf_old hd.lt]
  have hd' : (s₂.switchTable newBlock g).Described k := by
    rw [switchTable_described, hblock]
    exact hd
  have hlow := h.blockOf_lt hd
  rw [switchTable_getRefcount hd', hblock, ← hn.count k fun heq => hk (heq ▸ hn.unused),
    (hn.described.2 hd).getRefcount, hb, hn.blockOf, switchTable]
  dsimp only
  rw [if_neg (by omega)]

/-- Clusters that are not part of the new metadata get no count. -/
theorem count_other (hno : newBlock < g.metaOffset ∨ g.metaOffset + g.blocksClusters ≤ newBlock)
    (hk : k ≠ newBlock) (hout : k < g.metaOffset ∨ g.tableOffset + g.tableClusters ≤ k)
    (hzero : s.getRefcount k = 0) : (s₂.switchTable newBlock g).getRefcount k = 0 := by
  have hb := h.new.blockClusters
  have hpos := s.blockClusters_pos
  have hmeta := h.growth.metaOffset
  rw [hb] at hmeta
  have hblockOf := switchTable_blockOf h.growth (k / s₂.blockClusters)
  by_cases hd : (s₂.switchTable newBlock g).Described k
  swap
  · exact getRefcount_eq_zero hd
  rw [switchTable_getRefcount hd, hblockOf, hb]
  split
  · next hin =>
    -- in a new block, behind the new metadata
    have hle : g.metaOffset ≤ k := by
      rw [hmeta]
      exact (mul_le_mul_right _ hin.1).trans (div_mul_le_self _ _)
    obtain ⟨i, hi⟩ := Nat.exists_eq_add_of_le hin.1
    have hki : i * s.blockClusters + k % s.blockClusters = k - g.metaOffset := by
      have hmod := div_add_mod k s.blockClusters
      rw [hi, mul_comm, add_mul] at hmod
      omega
    have hlt : k - g.metaOffset < g.blocksClusters * s.blockClusters := by
      have hk_lt := (div_lt_iff_lt_mul hpos).1 hin.2
      rw [add_mul] at hk_lt
      omega
    have hcount := h.growth.count (k - g.metaOffset) (by rwa [hb])
    rw [Growth.tableOffset] at hout
    rw [if_neg (by omega)] at hcount
    rw [hi, Nat.add_sub_cancel_left, switchTable]
    dsimp only
    rw [if_pos ⟨Nat.le_add_right _ _, by omega, by omega⟩, Nat.add_sub_cancel_left, hb, hki,
      getD_eq_getElem?_getD, hcount]
    rfl
  split
  · next hti =>
    -- in the new block for the cluster
    rw [switchTable]
    dsimp only
    rw [if_neg fun hc => hc.2.2 rfl, hn.blocks_eq_zero hk hti]
    rfl
  · next hin hti =>
    -- in a block of the old table
    have hk' : s.Described k := by
      rwa [switchTable_described, hblockOf, hb, if_neg hin, if_neg hti, hn.blockOf] at hd
    have hlow := h.blockOf_lt hk'
    have hcount := hn.count k hk
    rw [hzero, (hn.described.2 hk').getRefcount, hb, hn.blockOf] at hcount
    rw [hn.blockOf, switchTable]
    dsimp only
    rw [if_neg (by omega), hcount]

theorem effect (hok : TableFreed s₂ newBlock g s') : AllocEffect s s' := by
  have hsame := hok.sameTable
  refine ⟨hsame.clusterBits.trans hn.clusterBits, hsame.layout h.layout, fun k hk => ?_,
    fun k hk => ?_, fun k hk hk' => ?_⟩
  · rw [hsame.described, switchTable_described, hn.blockClusters, h.blockOf_old hk.lt]
    exact hk
  · rw [← h.count_old hn hk]
    rcases hok with hok | ⟨j, hok⟩
    · by_cases hint : (s₂.switchTable newBlock g).Intersects
        (s₂.refcountTableOffset * s₂.clusterSize) (s₂.refcountTable.length * 8 : ℕ) k
      · have := hok.changed k hint
        exact .inr ⟨h.intersects_table hint, by omega⟩
      · exact .inl (hok.other k hint)
    · exact .inl (hok.count k)
  · rw [← h.count_old hn hk] at hk
    rcases hok with hok | ⟨j, hok⟩
    · by_cases hint : (s₂.switchTable newBlock g).Intersects
        (s₂.refcountTableOffset * s₂.clusterSize) (s₂.refcountTable.length * 8 : ℕ) k
      · have := hok.changed k hint
        exact hok.free k hint (by omega)
      · exact absurd (hok.other k hint ▸ hk') hk
    · exact absurd (hok.count k ▸ hk') hk

/-- Unless the new metadata may be put over the new block, nothing else gets a count. -/
theorem takes (hok : TableFreed s₂ newBlock g s') (hmod : c % s.blockClusters ≠ 0) :
    Takes s s' := by
  have hmem : ∀ k, k ∈ List.range' g.metaOffset (g.blocksClusters + g.tableClusters) ++
      [newBlock] ↔ g.metaOffset ≤ k ∧ k < g.tableOffset + g.tableClusters ∨ k = newBlock := by
    intro k
    rw [mem_append, mem_range'_1, mem_singleton, Growth.tableOffset, add_assoc]
  refine ⟨List.range' g.metaOffset (g.blocksClusters + g.tableClusters) ++ [newBlock], ?_,
    fun k hk => ?_, fun k hk hzero => ?_⟩
  · rw [hok.sameTable.taken, switchTable, append_assoc, singleton_append, hn.taken]
  · rcases (hmem k).1 hk with ⟨hlow, -⟩ | rfl
    · exact h.unused hlow
    · exact hn.unused
  · rw [hmem, not_or] at hk
    have hcount := h.count_other hn (h.newBlock_far (.inl hmod)) hk.2 (by omega) hzero
    rcases hok with hok | ⟨j, hok⟩
    · rw [hok.other k fun hint => h.before.table k (h.intersects_table hint) hzero, hcount]
    · rw [hok.count k, hcount]

end

end Grown

/-! ## The allocation -/

/-- The cluster is in the table, or not the first one of its block, so that the metadata of a larger
table is put behind the block. -/
def Apart (s : RefcountState) (c : ℕ) : Prop :=
  c % s.blockClusters ≠ 0 ∨ c / s.blockClusters < s.refcountTable.length

/-- This is so for each cluster for which a block is allocated. -/
def AllApart (s : RefcountState) (c : ℕ) : ℕ → Prop
  | 0 => s.Apart c
  | d + 1 => s.Apart c ∧ (s.nextFree / s.blockClusters = c / s.blockClusters ∨
    s.Described s.nextFree ∨ s.searched.AllApart s.nextFree d)

theorem AllApart.apart (h : s.AllApart c d) : s.Apart c := by
  cases d with
  | zero => exact h
  | succ d => exact h.1

/-- After the new block was allocated, it is hooked up, or the table grows. -/
theorem allocRefcountBlock_new (hs : s.Consistent) (hd : ¬ s.Described c)
    (hidx : c / s.blockClusters < 2 ^ 32)
    (hnew : s.newRefcountBlock (updateRefcount (calls + 2)) c = some (s₂, .ok newBlock))
    (hn : NewOk s s₂ c newBlock) :
    ∃ s' e, s.allocRefcountBlock (updateRefcount (calls + 2)) c = some (s', .error e) ∧
      AllocEffect s s' ∧ (s.Apart c → Takes s s') := by
  have hb := hn.blockClusters
  have hzero : ¬ s.blockOf (c / s.blockClusters) ≠ 0 := hd
  rcases lt_or_ge (c / s.blockClusters) s.refcountTable.length with hin | hout
  · obtain ⟨heffect, htakes⟩ := hn.effect_hookup hs hd hin
    refine ⟨_, .eagain, ?_, heffect, fun _ => htakes⟩
    rw [allocRefcountBlock]
    rw [mod_eq_of_lt hidx, if_neg hzero, hnew, bind_some]
    dsimp only
    rw [if_pos (by rwa [hn.refcountTable])]
  · by_cases hused : (c + s.blockClusters - 1) / s.blockClusters ≤ maxReftableSize
    · obtain ⟨g, s', h, hok, -, halloc⟩ := allocRefcountBlock_grow hs hout hnew hused
      exact ⟨s', .eagain, halloc, h.effect hn hok, fun hapart =>
        h.takes hn hok (hapart.resolve_right (not_lt.2 hout))⟩
    · refine ⟨_, .efbig, ?_, hn.effect hs, fun _ => hn.takes rfl hn.count⟩
      rw [allocRefcountBlock]
      rw [mod_eq_of_lt hidx, if_neg hzero, hnew, bind_some]
      dsimp only
      rw [if_neg (by rw [hn.refcountTable]; omega), growRefcountTable, hb]
      rw [if_pos (not_le.1 hused)]
      rfl

theorem Consistent.searched (hs : s.Consistent) : s.searched.Consistent :=
  ⟨⟨hs.length_lt, hs.inj⟩, hs.header, hs.table, hs.block⟩

/-- What a detour has changed. -/
theorem AllocEffect.of_searched (h : AllocEffect s.searched s') : AllocEffect s s' :=
  ⟨h.clusterBits, h.layout, h.described, h.keeps, h.free⟩

theorem Takes.of_searched (h : Takes s.searched s') : Takes s s' := by
  obtain ⟨l, htaken, hunused, hcount⟩ := h
  refine ⟨l ++ [s.nextFree], ?_, fun k hk => ?_, fun k hk => ?_⟩
  · rw [htaken, append_assoc]
    rfl
  · rcases mem_append.1 hk with hk | hk
    · exact hunused k hk
    · rw [mem_singleton.1 hk]
      exact s.getRefcount_nextFree
  · exact hcount k fun hk' => hk (mem_append_left _ hk')

/-- The allocation of a missing block comes to an end after at most `d` detours. -/
theorem allocRefcountBlock_spec (calls : ℕ) : ∀ (d : ℕ) {s : RefcountState} {c : ℕ},
    s.Consistent → ¬ s.Described c → c / s.blockClusters < 2 ^ 32 → s.Near d → s.Shallow c d →
    ∃ s' e, s.allocRefcountBlock (updateRefcount (calls + d + 2)) c = some (s', .error e) ∧
      AllocEffect s s' ∧ (s.AllApart c d → Takes s s')
  | d, s, c, hs, hd, hidx, hnear, hshallow => by
    by_cases hfound : s.nextFree / s.blockClusters = c / s.blockClusters ∨ s.Described s.nextFree
    · obtain ⟨s₂, hnew, hn⟩ := newRefcountBlock_found hs.toLayout (calls + d + 1) hfound
      have hn := hn fun i hi heq => hs.block i hi (heq ▸ s.getRefcount_nextFree)
      obtain ⟨s', e, halloc, heffect, htakes⟩ := allocRefcountBlock_new hs hd hidx hnew hn
      exact ⟨s', e, halloc, heffect, fun hapart => htakes hapart.apart⟩
    · rw [not_or] at hfound
      obtain ⟨hother, hd'⟩ := hfound
      obtain ⟨d, rfl, hshallow'⟩ := hshallow.searched hother hd'
      obtain ⟨s', e, halloc, heffect, htakes⟩ := allocRefcountBlock_spec calls d hs.searched hd'
        hnear.nextFree_lt hnear.searched hshallow'
      refine ⟨s', e, ?_, heffect.of_searched, fun ⟨_, hapart⟩ =>
        (htakes ((hapart.resolve_left hother).resolve_left hd')).of_searched⟩
      have hnew := (newRefcountBlock_detour hother hd' hnear.nextFree_lt).2 ⟨e, halloc, rfl⟩
      rw [allocRefcountBlock]
      rw [mod_eq_of_lt hidx, if_neg (show ¬ s.blockOf (c / s.blockClusters) ≠ 0 from hd)]
      rw [show calls + (d + 1) + 2 = calls + d + 1 + 2 by omega, hnew]
      rfl

theorem growRefcountTable_error {e}
    (h : s.growRefcountTable c newBlock = some (.error e)) : e = .efbig := by
  unfold growRefcountTable at h
  dsimp only at h
  split at h
  · cases h
    rfl
  · simp only [bind_eq_bind, bind_eq_some_iff] at h
    obtain ⟨_, -, _, -, _, -, _, -, _, -, _, -, h⟩ := h
    cases h

/-- The clusters that the search finds have no refcount, so none can get out of range. -/
theorem allocRefcountBlock_ne_einval (calls : ℕ) : ∀ (d : ℕ) {s s' : RefcountState} {c : ℕ}
    {e : RefcountError}, s.Layout → ¬ s.Described c → c / s.blockClusters < 2 ^ 32 → s.Near d →
    s.Shallow c d →
    s.allocRefcountBlock (updateRefcount (calls + d + 2)) c = some (s', .error e) → e ≠ .einval
  | d, s, s', c, e, hl, hd, hidx, hnear, hshallow, h => by
    rw [allocRefcountBlock] at h
    rw [mod_eq_of_lt hidx, if_neg (show ¬ s.blockOf (c / s.blockClusters) ≠ 0 from hd)] at h
    by_cases hfound : s.nextFree / s.blockClusters = c / s.blockClusters ∨ s.Described s.nextFree
    · obtain ⟨s₂, hnew, -⟩ := newRefcountBlock_found hl (calls + d + 1) hfound
      rw [hnew, bind_some] at h
      dsimp only at h
      split at h
      · cases h
        decide
      · obtain ⟨r, hgrow, h⟩ := bind_eq_some_iff.1 h
        cases r with
        | error e' =>
          obtain ⟨-, he⟩ := Prod.mk.inj (Option.some.inj h)
          rw [← Except.error.inj he, growRefcountTable_error hgrow]
          decide
        | ok g =>
          obtain ⟨⟨s₃, r⟩, -, h⟩ := map_eq_some_iff.1 h
          cases h
          decide
    · rw [not_or] at hfound
      obtain ⟨hother, hd'⟩ := hfound
      obtain ⟨d, rfl, hshallow'⟩ := hshallow.searched hother hd'
      obtain ⟨⟨s₁, r⟩, hnew, h⟩ := bind_eq_some_iff.1 h
      obtain ⟨e', halloc, rfl⟩ := (newRefcountBlock_detour hother hd' hnear.nextFree_lt).1 hnew
      obtain ⟨rfl, he⟩ := Prod.mk.inj (Option.some.inj h)
      rw [← Except.error.inj he]
      have hl' : s.searched.Layout := ⟨hl.length_lt, hl.inj⟩
      exact allocRefcountBlock_ne_einval calls d hl' hd' hnear.nextFree_lt hnear.searched hshallow'
        halloc

end RefcountState

end QemuArm
