import QemuArm.Qcow2CacheOrder
import QemuArm.Qcow2RefUpdate

/-!
# The refcounts behind the cached refcount blocks

`update_refcount` has two models : `updateRefcount` of the caches records which references a
block has counted, and `RefcountState.updateRefcount` computes the counts. Where both return
without an error, they agree (`updateRefcount_counts`) : the refcount of a cluster is what it was
at the start, with one for each increase in its block and less one for each decrease.
-/

namespace QemuArm

open List TableEdit RefcountState

/-- What an update of a block adds to the refcount of `k`; the reference `a` is one to the cluster
`cluster a`. -/
def TableEdit.counts (cluster : ℕ → ℕ) (k : ℕ) : TableEdit → ℤ
  | inc a => if cluster a = k then 1 else 0
  | dec a => if cluster a = k then -1 else 0
  | ref _ | unref _ => 0

/-- The refcounts are those of the start with the updates in the blocks. -/
def CountsAgree (cluster : ℕ → ℕ) (start : ℕ → ℤ) (r : RefcountState) (s : CacheState TableLog) :
    Prop :=
  ∀ k, r.Described k → (r.getRefcount k : ℤ) = start k +
    ∑ e ∈ s.view .refcountBlock (r.blockOf (k / r.blockClusters)), e.counts cluster k

variable {cluster : ℕ → ℕ} {start : ℕ → ℤ} {increase : Bool} {references : List ℕ}

theorem counts_edit (a k : ℕ) : ((if increase then inc else dec) a).counts cluster k =
    if cluster a = k then (if increase then 1 else -1) else 0 := by
  cases increase <;> rfl

/-- Updates for references to different clusters count once for each of these clusters. -/
theorem sum_counts {new : TableLog} (hnodup : (references.map cluster).Nodup) {k : ℕ}
    (hnew : ∀ e ∈ new, ∃ a ∈ references, e = (if increase then inc else dec) a)
    (hall : ∀ a ∈ references, cluster a = k → (if increase then inc else dec) a ∈ new) :
    ∑ e ∈ new, e.counts cluster k =
      if k ∈ references.map cluster then (if increase then 1 else -1) else 0 := by
  by_cases hk : k ∈ references.map cluster
  · obtain ⟨a, ha, rfl⟩ := mem_map.1 hk
    rw [if_pos hk, Finset.sum_eq_single_of_mem _ (hall a ha rfl), counts_edit, if_pos rfl]
    intro e he hne
    obtain ⟨a', ha', rfl⟩ := hnew e he
    rw [counts_edit, if_neg fun heq => hne ?_]
    rw [inj_on_of_nodup_map hnodup ha' ha heq]
  · rw [if_neg hk]
    refine Finset.sum_eq_zero fun e he => ?_
    obtain ⟨a, ha, rfl⟩ := hnew e he
    rw [counts_edit, if_neg fun heq => hk (mem_map.2 ⟨a, ha, heq⟩)]

/-- `update_refcount` for clusters that have their blocks, with references that were not counted
before. -/
theorem updateRefcount_counts {depth offset calls : ℕ} {length : ℤ} {r : RefcountState}
    {s s' : CacheState TableLog} {ignored : Bool} (hok : CacheOk s) (hl : r.Layout)
    (hpos : 0 < length) (hrefs : references.map cluster = r.clustersOf offset length)
    (hcan : r.CanBump (if increase then 1 else -1) (r.clustersOf offset length))
    (hfresh : ∀ a ∈ references, ∀ b,
      (if increase then inc else dec) a ∉ s.view .refcountBlock b)
    (h : CountsAgree cluster start r s)
    (hs : updateRefcount depth increase
      (references.map fun a => (a, r.blockOf (cluster a / r.blockClusters))) s =
        some (none, ignored, s')) :
    ∃ r', RefcountState.updateRefcount (calls + 1) r offset length (if increase then 1 else -1) =
      some (r', .ok ()) ∧ CountsAgree cluster start r' s' := by
  refine ⟨_, updateRefcount_canBump hl hpos hcan, fun k hk => ?_⟩
  have hnodup := r.clustersOf_nodup offset length
  have hsame := sameTable_bumps (if increase then 1 else -1) (r.clustersOf offset length) r
  have hk' : r.Described k := hsame.described.1 hk
  have hblock : ∀ p ∈ references.map fun a => (a, r.blockOf (cluster a / r.blockClusters)),
      p.2 ≠ 0 := by
    intro p hp
    obtain ⟨a, ha, rfl⟩ := mem_map.1 hp
    exact (hcan _ (hrefs ▸ mem_map_of_mem ha)).1
  obtain ⟨b, hb⟩ : ∃ b, b = r.blockOf (k / r.blockClusters) := ⟨_, rfl⟩
  have hview := (updateRefcountAux_effect _ _ _ hok hblock hs).2.2.2.1 rfl le_rfl b
  have hsub : s.view .refcountBlock b ⊆ s'.view .refcountBlock b := fun e he =>
    (hview e).2 (.inl he)
  have hsum : ∑ e ∈ s'.view .refcountBlock b \ s.view .refcountBlock b, e.counts cluster k =
      if k ∈ references.map cluster then (if increase then 1 else -1) else 0 := by
    refine sum_counts (hrefs ▸ hnodup) (fun e he => ?_) fun a ha hak => ?_
    · obtain ⟨he', hold⟩ := Finset.mem_sdiff.1 he
      obtain ⟨p, hp, -, rfl⟩ := ((hview e).1 he').resolve_left hold
      obtain ⟨a, ha, rfl⟩ := mem_map.1 hp
      exact ⟨a, ha, rfl⟩
    · refine Finset.mem_sdiff.2 ⟨(hview _).2 (.inr ⟨_, mem_map_of_mem ha, ?_, rfl⟩), hfresh a ha b⟩
      rw [hb, hak]
  rw [getRefcount_bumps hl hnodup hcan, hsame.blockOf, hsame.blockClusters, ← hb,
    ← Finset.sum_sdiff hsub, hsum, hrefs, h k hk', hb]
  split_ifs <;> ring

end QemuArm
