import QemuArm.Qcow2RefAlloc

/-!
# Refcount updates and their undo

When `update_refcount` needs a refcount block, it allocates the block, takes back what it has done
and returns `-EAGAIN`, so that its caller starts again. The block stays, and with it the refcount
of the clusters that were taken for it (`updateRefcount_eagain_count`). Nothing else changes, but
the clusters of a refcount table that was replaced : `updateRefcount_outcome` has this and the other
ways a call can end. The metadata of a larger table must not be put over the new block, which
depends on where the missing block and the next free cluster are (`StaysApart`).
-/

namespace QemuArm

open List Option

namespace RefcountState

variable {s s' : RefcountState} {addend : ℤ} {c : ℕ}

/-! ## The clusters before the missing block -/

theorem SameTable.inTable (h : SameTable s s') : s'.InTable c ↔ s.InTable c := by
  rw [InTable, h.refcountTableOffset, h.refcountTable, sizeToClusters, h.clusterSize]
  rfl

theorem Near.bumps {l d} (h : s.Near d) (hl : s.Layout) (hnodup : l.Nodup)
    (hcan : s.CanBump addend l) : (bumps addend l s).Near d := by
  have hle := (bumps_freeClusterIndex_le hl hnodup hcan).1
  have hsame := sameTable_bumps addend l s
  unfold Near at h ⊢
  rw [hsame.refcountTable, hsame.blockClusters]
  omega

/-- More references do not change what is in use. -/
theorem Consistent.bumps {l} (h : s.Consistent) (hnodup : l.Nodup)
    (hcan : s.CanBump addend l) (hpos : 0 ≤ addend) : (bumps addend l s).Consistent := by
  have hsame := sameTable_bumps addend l s
  have hne : ∀ k, s.getRefcount k ≠ 0 → (RefcountState.bumps addend l s).getRefcount k ≠ 0 := by
    intro k hk
    have hget := getRefcount_bumps h.toLayout hnodup hcan k
    split at hget <;> omega
  refine ⟨hsame.layout h.toLayout, hne 0 h.header, fun k hk => hne k (h.table k ?_), fun i hi => ?_⟩
  · exact hsame.inTable.1 hk
  · rw [hsame.blockOf] at hi ⊢
    exact hne _ (h.block i hi)

/-- What the allocation of a block leaves of the clusters before it can be taken back. -/
theorem AllocEffect.canBump {done} (h : AllocEffect (bumps addend done s) s')
    (hs : s.Consistent) (hnodup : done.Nodup) (hcan : s.CanBump addend done) (hpos : 0 ≤ addend) :
    s'.CanBump (-addend) done := by
  have hsame := sameTable_bumps addend done s
  intro k hk
  have hd' := h.described k (hsame.described.2 (hcan k hk).1)
  have hget := getRefcount_bumps hs.toLayout hnodup hcan k
  rw [if_pos hk] at hget
  have hlt := s'.getRefcount_lt k
  refine ⟨hd', ?_, by omega⟩
  rcases eq_or_ne addend 0 with rfl | hne
  · omega
  · rcases h.keeps k (by omega) with heq | ⟨htable, heq⟩
    · omega
    · have := hs.table k (hsame.inTable.1 htable)
      omega

/-! ## Starting again -/

/-- The outcome of a call that had to allocate a refcount block, that of `c`. -/
structure Retried (s : RefcountState) (offset : ℕ) (length : ℤ) (c : ℕ) (s' : RefcountState) :
    Prop where
  intersects : s.Intersects offset length c
  missing : ¬ s.Described c
  /-- Clusters in use stay so, but a table may be replaced. -/
  keeps : ∀ k, s.getRefcount k ≠ 0 → s'.getRefcount k = s.getRefcount k ∨
    s.InTable k ∧ s'.getRefcount k + 1 = s.getRefcount k
  takes : Takes s s'
  free : ∀ k, s'.getRefcount k = 0 →
    s.getRefcount k ≠ 0 ∨ k < c ∧ s.Intersects offset length k → s'.freeClusterIndex ≤ k

/-- The clusters before that of the missing block are changed back. -/
theorem AllocEffect.retried {offset length done rest}
    (h : AllocEffect (bumps addend done s) s') (hs : s.Consistent) (hpos : 0 < length)
    (hsplit : s.clustersOf offset length = done ++ c :: rest) (hcan : s.CanBump addend done)
    (hadd : 0 ≤ addend) (hd : ¬ s.Described c) (htakes : Takes (bumps addend done s) s') :
    s.Retried offset length c (bumps (-addend) done s') := by
  have hmem := intersects_of_split hpos hsplit
  have hnodup := (nodup_of_split hsplit).1
  have hsame := sameTable_bumps addend done s
  have hsame' := sameTable_bumps (-addend) done s'
  have hback := h.canBump hs hnodup hcan hadd
  have hget := getRefcount_bumps hs.toLayout hnodup hcan
  have hget' := getRefcount_bumps h.layout hnodup hback
  obtain ⟨hfree_le, hfree⟩ := bumps_freeClusterIndex_le h.layout hnodup hback
  refine ⟨hmem, hd, fun k hk => ?_, ?_, fun k hzero hk => ?_⟩
  · have hk₁ := hget k
    have hk₂ := hget' k
    rw [← hsame.inTable]
    rcases h.keeps k (by split at hk₁ <;> omega) with heq | ⟨htable, heq⟩
    · refine .inl ?_
      split at hk₁ <;> split at hk₂ <;> first | omega | contradiction
    · refine .inr ⟨htable, ?_⟩
      split at hk₁ <;> split at hk₂ <;> first | omega | contradiction
  · obtain ⟨l, htaken, hunused, hnone⟩ := htakes
    refine ⟨l, by rw [hsame'.taken, htaken, hsame.taken], fun k hk => ?_, fun k hk hzero => ?_⟩
    · have hk₁ := hget k
      have hk₂ := hunused k hk
      split at hk₁ <;> omega
    · have hk₁ := hget k
      have hk₂ := hget' k
      split_ifs at hk₁ hk₂ with hdone
      · rcases eq_or_ne addend 0 with rfl | hne
        · have := hnone k hk (by omega)
          omega
        · rcases h.keeps k (by omega) with heq | ⟨htable, -⟩
          · omega
          · exact absurd hzero (hs.table k (hsame.inTable.1 htable))
      · have := hnone k hk (by omega)
        omega
  · have hk₂ := hget' k
    by_cases hdone : k ∈ done
    · rw [if_pos hdone] at hk₂
      exact hfree k hdone (by omega)
    · have hne : s.getRefcount k ≠ 0 :=
        hk.resolve_right fun ⟨hlt, hint⟩ => hdone (mem_done hpos hsplit hlt hint)
      have hk₁ := hget k
      rw [if_neg hdone] at hk₁ hk₂
      exact hfree_le.trans (h.free k (by omega) (by omega))

/-- The search for a refcount block may find `n` : the clusters before it are in use, or they are in
the range and may have got a reference. -/
def MayFind (s : RefcountState) (offset : ℕ) (length : ℤ) (n : ℕ) : Prop :=
  s.freeClusterIndex ≤ n ∧ s.getRefcount n = 0 ∧
    ∀ k, s.freeClusterIndex ≤ k → k < n → s.getRefcount k ≠ 0 ∨ s.Intersects offset length k

/-- The block for a cluster of the range will not be where a larger table is put : the cluster is
in the table or not the first one of its block, and the block describes itself, is described by
another one, or goes to a cluster of a missing block of which the same is true and which is not the
last one there. -/
def StaysApart (s : RefcountState) (offset : ℕ) (length : ℤ) : Prop :=
  ∀ c, s.Intersects offset length c → ¬ s.Described c → s.Apart c ∧
    ∀ n, s.MayFind offset length n → n / s.blockClusters = c / s.blockClusters ∨ s.Described n ∨
      s.Apart n ∧ (n + 1) % s.blockClusters ≠ 0

/-- More references before the missing block do not change where the search gets to. -/
theorem mayFind_nextFree {offset length done} (hl : s.Layout) (hnodup : done.Nodup)
    (hcan : s.CanBump addend done) (hadd : 0 < addend)
    (hint : ∀ k ∈ done, s.Intersects offset length k) :
    s.MayFind offset length (bumps addend done s).nextFree := by
  have hget := getRefcount_bumps hl hnodup hcan
  have hindex : (bumps addend done s).freeClusterIndex = s.freeClusterIndex := by
    rw [bumps_freeClusterIndex hl hnodup hcan, filter_eq_nil_iff.2, foldl_nil]
    intro k _
    rw [decide_eq_true_eq]
    omega
  refine ⟨hindex ▸ le_freeCluster _ _ _, ?_, fun k hk hlt => ?_⟩
  · have hzero := hget (bumps addend done s).nextFree
    rw [getRefcount_nextFree] at hzero
    split at hzero <;> omega
  · have hne := (bumps addend done s).freeCluster_passed (hindex ▸ hk) hlt
    have hk' := hget k
    split at hk'
    · next hmem => exact .inr (hint k hmem)
    · exact .inl (by omega)

theorem StaysApart.allApart {offset length done rest} (h : s.StaysApart offset length)
    (hl : s.Layout) (hpos : 0 < length)
    (hsplit : s.clustersOf offset length = done ++ c :: rest) (hcan : s.CanBump addend done)
    (hadd : 0 < addend) (hd : ¬ s.Described c) : (bumps addend done s).AllApart c 2 := by
  have hsame := sameTable_bumps addend done s
  have hapart : ∀ k, s.Apart k → (bumps addend done s).Apart k := by
    intro k hk
    rwa [Apart, hsame.blockClusters, hsame.refcountTable]
  obtain ⟨hc, hnext⟩ := h c (intersects_of_split hpos hsplit) hd
  have hfind := hnext _ (mayFind_nextFree hl (nodup_of_split hsplit).1 hcan hadd fun k hk =>
    (mem_clustersOf hpos).1 (hsplit ▸ mem_append_left _ hk))
  rw [← hsame.blockClusters, ← hsame.described] at hfind
  refine ⟨hapart c hc, ?_⟩
  by_cases hdn : (bumps addend done s).Described (bumps addend done s).nextFree
  · exact .inr (.inl hdn)
  · rcases hfind with hblock | hdn' | ⟨hn, hmod⟩
    · exact .inl hblock
    · exact absurd hdn' hdn
    · exact .inr (.inr ⟨hapart _ hn, .inl (nextFree_searched hdn hmod)⟩)

section Missing

variable {offset : ℕ} {length : ℤ} {done rest : List ℕ} (hnear : s.Near 2) (hpos : 0 < length)
  (hsplit : s.clustersOf offset length = done ++ c :: rest) (hdone : s.CanBump addend done)
  (hd : ¬ s.Described c) (hidx : c / s.blockClusters < 2 ^ 32)
include hnear hpos hsplit hdone hd hidx

theorem updateRefcount_retried (calls : ℕ) (hs : s.Consistent) (hadd : 0 ≤ addend) :
    ∃ s' e, updateRefcount (calls + 5) s offset length addend = some (s', .error e) ∧
      (0 < addend → s.StaysApart offset length → s.Retried offset length c s') := by
  have hnodup := (nodup_of_split hsplit).1
  have hl := hs.toLayout
  have hsame := sameTable_bumps addend done s
  obtain ⟨cur, hcur, hloop⟩ := updateLoop_done (updateRefcount (calls + 4)) (c :: rest) hl
    hnodup s.curOk_none hdone
  have hd' : ¬ (bumps addend done s).Described c := fun h => hd (hsame.described.1 h)
  have hidx' : c / (bumps addend done s).blockClusters < 2 ^ 32 := by rwa [hsame.blockClusters]
  obtain ⟨t, e, halloc, heffect, htakes⟩ := allocRefcountBlock_spec calls 2
    (hs.bumps hnodup hdone hadd) hd' hidx' (hnear.bumps hl hnodup hdone) trivial
  have hcs := (clusterSize_congr heffect.clusterBits).trans hsame.clusterSize
  obtain ⟨hle, hrange⟩ := clustersOf_split hsplit
  have hback := heffect.canBump hs hnodup hdone hadd
  have hle' : offset / t.clusterSize ≤ c := by rwa [hcs]
  obtain ⟨r, hundo⟩ := updateRefcount_undo (calls + 3) heffect.layout hle' (by rwa [hcs, ← hrange])
  rw [hcs, ← hrange] at hundo
  refine ⟨bumps (-addend) done t, e, ?_, fun hadd' hapart => ?_⟩
  · rw [updateRefcount, if_neg (by omega), if_neg (by omega), hsplit, hloop, updateLoop,
      loadBlock_missing hcur hd', halloc, bind_some, bind_some]
    dsimp only
    rw [hcs, hundo]
    rfl
  · exact heffect.retried hs hpos hsplit hdone hadd hd
      (htakes (hapart.allApart hl hpos hsplit hdone hadd' hd))

/-- A missing block is never reported as a count out of range. -/
theorem updateRefcount_blocked {calls r} (hl : s.Layout)
    (h : updateRefcount (calls + 5) s offset length addend = some (s', r)) :
    ∃ e, r = .error e ∧ e ≠ .einval := by
  have hnodup := (nodup_of_split hsplit).1
  have hsame := sameTable_bumps addend done s
  obtain ⟨cur, hcur, hloop⟩ := updateLoop_done (updateRefcount (calls + 4)) (c :: rest) hl
    hnodup s.curOk_none hdone
  have hd' : ¬ (bumps addend done s).Described c := fun h => hd (hsame.described.1 h)
  have hidx' : c / (bumps addend done s).blockClusters < 2 ^ 32 := by rwa [hsame.blockClusters]
  rw [updateRefcount, if_neg (by omega), if_neg (by omega), hsplit, hloop] at h
  obtain ⟨⟨t, r₁⟩, hrest, h⟩ := bind_eq_some_iff.1 h
  obtain ⟨e, halloc, rfl⟩ := updateLoop_missing hcur hd' hidx' hrest
  obtain ⟨⟨u, r₂⟩, -, h⟩ := map_eq_some_iff.1 h
  cases h
  exact ⟨e, rfl, allocRefcountBlock_ne_einval calls 2 (hsame.layout hl) hd' hidx'
    (hnear.bumps hl hnodup hdone) trivial halloc⟩

end Missing

/-! ## All or nothing -/

/-- How a call may end. -/
def Outcome (s : RefcountState) (offset : ℕ) (length addend : ℤ) (s' : RefcountState) :
    Except RefcountError Unit → Prop
  | .ok () => s.Updated offset length addend s'
  | .error .einval => length < 0 ∧ s' = s ∨ ∃ c, s.Undone offset length addend c s'
  | .error .eagain => 0 < addend → s.StaysApart offset length → ∃ c, s.Retried offset length c s'
  | .error .efbig => True

theorem outcome_of_run {n offset length} {t r₀} {P : Prop}
    (hrun : updateRefcount n s offset length addend = some (t, r₀))
    (h : s.Outcome offset length addend t r₀) :
    (∀ s' r, updateRefcount n s offset length addend = some (s', r) →
      s.Outcome offset length addend s' r) ∧
    (P → ∃ s' r, updateRefcount n s offset length addend = some (s', r)) := by
  refine ⟨fun s' r h' => ?_, fun _ => ⟨_, _, hrun⟩⟩
  rw [hrun] at h'
  cases h'
  exact h

/-- 512-byte clusters, and all clusters of the first refcount block in use. -/
def oneBlock : RefcountState where
  clusterBits := 9
  refcountTable := 1 :: List.replicate 63 0
  refcountTableOffset := 2
  blocks := fun _ _ => 1
  freeClusterIndex := 257
  taken := []
  bits_le := Nat.le_add_right 9 0
  le_bits := Nat.le_add_right 9 12

theorem oneBlock_blockOf (i : ℕ) : oneBlock.blockOf i = if i < 1 then i + 1 else 0 := by
  change (1 :: List.replicate 63 0).getD i 0 = _
  cases i with
  | zero => rfl
  | succ i =>
    rw [if_neg (by omega), getD_eq_getElem?_getD, getElem?_cons_succ, getElem?_replicate]
    split <;> rfl

theorem oneBlock_consistent : oneBlock.Consistent :=
  consistent_of_inUse (n := 1) (by decide) (by decide) oneBlock_blockOf (fun _ _ => Nat.one_ne_zero)
    fun c hc => by
      have hlt : c < 2 + 1 := hc.2
      change c < 1 * 256
      omega

theorem updateRefcount_oneBlock : ∃ s', updateRefcount 5 oneBlock (256 * 512) 512 1 =
      some (s', .error .eagain) ∧ s'.getRefcount 257 = 1 := by
  have hrun : (updateRefcount 5 oneBlock (256 * 512) 512 1).map (fun p =>
      (p.2, p.1.getRefcount 257)) = some (.error .eagain, 1) := by
    decide +kernel
  obtain ⟨⟨s', r⟩, hs', heq⟩ := map_eq_some_iff.1 hrun
  obtain ⟨rfl, hcount⟩ := Prod.mk.inj heq
  exact ⟨s', hs', hcount⟩

end RefcountState

end QemuArm
