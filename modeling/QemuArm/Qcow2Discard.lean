import QemuArm.Qcow2Extent

/-!
# Discarding clusters of a qcow2 image

`qcow2_discard_clusters` and what it uses of `qcow2-cluster.c`. The entry of a compressed cluster
has the offset of the data in its low bits, and `discard_single_l2` takes bit 0 for the zero flag :
compressed data at an odd offset is not discarded (`discardClusters_fail`). Otherwise what is
discarded reads as zeroes (`discardClusters_iff`).

The clusters that lost their last reference are collected and discarded in the file at the end of
the request. One that was taken again for the copy of an L2 table is discarded too, so the result
is for requests in which no table is copied after something was freed (`CopiedBehind`), and for
drivers that do not pass discards on.

L2 tables and normal clusters are at multiples of the cluster size. L2 tables are given by their
clusters, zero for none, with the copied flag. `host` has the words of the host clusters. Requests
are inside of the disk, which the L1 table covers, and those to the file succeed. A copy of a table
for which a refcount block would have to be allocated first is not part of the model.
-/

namespace QemuArm

open List Function Finset Nat

structure DiscardFormat where
  clusterBits : ℕ
  qcowVersion : ℕ
  backing : Option (ℕ → ℕ → BitVec 64)
  /-- `discard_passthrough` of the type of the request -/
  passthrough : Bool
  /-- that of `QCOW2_DISCARD_OTHER` -/
  passthroughOther : Bool
  /-- what the file has in a cluster after `bdrv_discard` -/
  wiped : ℕ → ℕ → BitVec 64

structure DiscardState where
  l1Table : List (ℕ × Bool)
  host : ℕ → ℕ → BitVec 64
  refcount : ℕ → ℕ
  /-- the clusters for which there is a refcount block -/
  described : ℕ → Bool
  freeClusterIndex : ℕ
  /-- the clusters to be discarded in the file -/
  discards : List ℕ
  /-- history : the clusters that were taken for L2 tables -/
  taken : List ℕ

open DiscardState

namespace DiscardState

variable (s : DiscardState)

/-- `qcow2_free_clusters`, which queues the clusters for discard if `pass`. After an error the
counts are as before, but not the queue. -/
def freeClusters (pass : Bool) (l : List ℕ) : DiscardState :=
  let freed := (l.takeWhile (s.refcount · ≠ 0)).filter (s.refcount · = 1)
  { s with
    refcount := fun k =>
      if k ∈ l ∧ ∀ j ∈ l, s.refcount j ≠ 0 then s.refcount k - 1 else s.refcount k
    freeClusterIndex := freed.foldl min s.freeClusterIndex
    discards := (if pass then freed else []) ++ s.discards }

/-- The search of `qcow2_alloc_clusters` for one cluster. -/
def allocCluster : ℕ → ℕ → Option ℕ
  | 0, _ => none
  | fuel + 1, i => if s.refcount i = 0 then some i else allocCluster fuel (i + 1)

/-- `l2_allocate` with the cluster `c`; the old table is freed. -/
def copyTable (pass : Bool) (l1Index t c : ℕ) : DiscardState :=
  { s with
    l1Table := s.l1Table.set l1Index (c, true)
    host := Function.update s.host c (if t = 0 then fun _ => 0 else s.host t)
    refcount := Function.update s.refcount c 1
    freeClusterIndex := c + 1
    taken := c :: s.taken }.freeClusters pass (if t = 0 then [] else [t])

/-- `get_cluster_table` : the table to change, which is copied when it may be shared. -/
def getClusterTable (pass : Bool) (fuel l1Index : ℕ) : Option (DiscardState × ℕ) :=
  match s.l1Table[l1Index]? with
  | none => none
  | some (t, true) => some (s, t)
  | some (t, false) =>
    ((s.allocCluster fuel s.freeClusterIndex).filter s.described).map fun c =>
      (s.copyTable pass l1Index t c, c)

/-- The L2 table of an index of the L1 table. -/
def table (i : ℕ) : ℕ := (s.l1Table.getD i (0, false)).1

end DiscardState

namespace DiscardFormat

variable (f : DiscardFormat)

def clusterSize : ℕ := 2 ^ f.clusterBits

def l2Size : ℕ := 2 ^ (f.clusterBits - 3)

/-- The host clusters that `qcow2_free_any_clusters` frees for an entry. -/
def hosts (entry : BitVec 64) : List ℕ :=
  match getClusterType entry with
  | .compressed =>
    let csizeShift := 62 - (f.clusterBits - 8)
    let nbCsectors := entry.toNat / 2 ^ csizeShift % 2 ^ (f.clusterBits - 8) + 1
    let start := entry.toNat % 2 ^ csizeShift / 512 * 512
    List.range' (start / f.clusterSize)
      ((start + nbCsectors * 512 - 1) / f.clusterSize + 1 - start / f.clusterSize)
  | .normal | .zero =>
    if entry &&& offsetMask = 0#64 then [] else [(entry &&& offsetMask).toNat / f.clusterSize]
  | .unallocated => []

/-- `discard_single_l2` leaves the entry alone. -/
def Skips (entry : BitVec 64) : Prop :=
  entry &&& oflagZero ≠ 0#64 ∨ entry &&& offsetMask = 0#64 ∧ f.backing = none

instance (entry : BitVec 64) : Decidable (f.Skips entry) := inferInstanceAs (Decidable (_ ∨ _ ∧ _))

/-- The loop body of `discard_single_l2`. -/
def discardEntry (s : DiscardState) (t i : ℕ) : DiscardState :=
  if f.Skips (s.host t i) then s
  else
    { s.freeClusters f.passthrough (f.hosts (s.host t i)) with
      host := Function.update s.host t (Function.update (s.host t) i
        (if 3 ≤ f.qcowVersion then oflagZero else 0)) }

/-- `discard_single_l2` from the cluster `g` on. -/
def discardSingleL2 (fuel : ℕ) (s : DiscardState) (g nbClusters : ℕ) : Option (DiscardState × ℕ) :=
  (s.getClusterTable f.passthroughOther fuel (g / f.l2Size)).map fun r =>
    let n := min nbClusters (f.l2Size - g % f.l2Size)
    ((List.range' (g % f.l2Size) n).foldl (fun s i => f.discardEntry s r.2 i) r.1, n)

/-- The loop of `qcow2_discard_clusters`, with a bound for the number of tables. -/
def discardLoop (fuel : ℕ) : ℕ → ℕ → ℕ → DiscardState → Option DiscardState
  | _, _, 0, s => some s
  | 0, _, _ + 1, _ => none
  | n + 1, g, nbClusters, s =>
    (f.discardSingleL2 fuel s g nbClusters).bind fun r =>
      discardLoop fuel n (g + r.2) (nbClusters - r.2) r.1

/-- `qcow2_process_discards`. -/
def processDiscards (s : DiscardState) : DiscardState :=
  { s with
    host := fun k => if k ∈ s.discards then f.wiped k else s.host k
    discards := [] }

/-- `qcow2_discard_clusters`, with the product in `int`. -/
def discardClusters (fuel : ℕ) (s : DiscardState) (offset nbSectors : ℕ) : Option DiscardState :=
  let first := (offset + (f.clusterSize - 1)) / f.clusterSize
  let last := (offset + Int.bmod (nbSectors * 512) (2 ^ 32)).toNat / f.clusterSize
  if last < first then some s
  else (f.discardLoop fuel (last - first) first (last - first) s).map f.processDiscards

/-- The entry of a guest cluster. -/
def entry (s : DiscardState) (g : ℕ) : BitVec 64 :=
  if s.table (g / f.l2Size) = 0 then 0 else s.host (s.table (g / f.l2Size)) (g % f.l2Size)

/-- What the guest reads; `inflate` is the decompression of the data in the host clusters. -/
def read (inflate : BitVec 64 → List (ℕ → BitVec 64) → ℕ → BitVec 64) (s : DiscardState)
    (g w : ℕ) : BitVec 64 :=
  match getClusterType (f.entry s g) with
  | .unallocated => f.backing.elim 0 fun b => b g w
  | .zero => 0
  | .normal => s.host ((f.entry s g &&& offsetMask).toNat / f.clusterSize) w
  | .compressed => inflate (f.entry s g) ((f.hosts (f.entry s g)).map s.host) w

/-! ## A consistent image -/

/-- The clusters that refer to a host cluster. -/
def refs (s : DiscardState) (k : ℕ) : Finset ℕ :=
  (Finset.range (s.l1Table.length * f.l2Size)).filter fun g => k ∈ f.hosts (f.entry s g)

/-- Data is counted, and is neither in L2 tables nor in the header, the cluster zero. -/
structure Owned (s : DiscardState) : Prop where
  refs : ∀ k, (f.refs s k).card ≤ s.refcount k
  used : ∀ i, s.refcount (s.table i) ≠ 0
  noData : ∀ i g, s.table i ∉ f.hosts (f.entry s g)
  inj : ∀ i j, s.table i ≠ 0 → s.table i = s.table j → i = j
  copied : ∀ t, (t, true) ∈ s.l1Table → t ≠ 0

variable {f} {s s' s₀ : DiscardState}

theorem l2Size_pos : 0 < f.l2Size := Nat.two_pow_pos _

variable {i k t fuel lo : ℕ}

theorem table_lt (h : s.table i ≠ 0) : i < s.l1Table.length := by
  by_contra hge
  exact h (by rw [table, getD_eq_default _ _ (not_lt.1 hge)])

/-- Behind the L1 table there is the header. -/
theorem table_length (s : DiscardState) : s.table s.l1Table.length = 0 := by
  rw [table, getD_eq_default _ _ le_rfl]

variable {g : ℕ}

theorem mem_refs (h : k ∈ f.hosts (f.entry s g)) : g ∈ f.refs s k := by
  refine Finset.mem_filter.2 ⟨Finset.mem_range.2 ?_, h⟩
  by_contra hge
  have hzero : s.table (g / f.l2Size) = 0 := by
    by_contra hne
    exact hge ((div_lt_iff_lt_mul l2Size_pos).1 (table_lt hne))
  rw [entry, if_pos hzero] at h
  cases h

theorem Owned.not_mem (h : f.Owned s) (hk : s.refcount k = 0) : k ∉ f.hosts (f.entry s g) := by
  intro hmem
  have := card_pos.2 ⟨g, mem_refs hmem⟩
  have := h.refs k
  omega

/-! ## Progress -/

/-- The clusters from `lo` to `g` are done, and `s₀` was the state before. -/
structure Progress (f : DiscardFormat) (s₀ s : DiscardState) (lo g : ℕ) : Prop where
  owned : f.Owned s
  entry : ∀ x, f.entry s x =
    if (lo ≤ x ∧ x < g) ∧ ¬ f.Skips (f.entry s₀ x) then oflagZero else f.entry s₀ x
  host : ∀ x, ∀ k ∈ f.hosts (f.entry s x), s.host k = s₀.host k
  count : ∀ k, (∀ i, s₀.table i ≠ k) → k ∉ s.taken → s.refcount k + ((Finset.Ico lo g).filter
    fun x => ¬ f.Skips (f.entry s₀ x) ∧ k ∈ f.hosts (f.entry s₀ x)).card = s₀.refcount k
  tables : ∀ i, s.table i ∈ s.taken ∨ s.table i = s₀.table i
  fresh : ∀ k ∈ s.taken, ∀ x, k ∉ f.hosts (f.entry s x)
  queue : ∀ k ∈ s.discards, s.refcount k = 0
  off : f.passthrough = false → f.passthroughOther = false → s.discards = []

/-- What is freed has a reference less, and is queued when that was the last one. -/
theorem freeClusters_spec (pass : Bool) {l : List ℕ} (h : ∀ k ∈ l, s.refcount k ≠ 0) :
    (∀ k, (s.freeClusters pass l).refcount k =
      if k ∈ l then s.refcount k - 1 else s.refcount k) ∧
    (∀ k ∈ (s.freeClusters pass l).discards, k ∈ s.discards ∨ k ∈ l ∧ s.refcount k = 1) ∧
    (pass = false → (s.freeClusters pass l).discards = s.discards) := by
  refine ⟨fun k => ?_, fun k hk => ?_, ?_⟩
  · rw [freeClusters]
    simp only [and_iff_left h]
  · rw [freeClusters, List.mem_append] at hk
    rcases hk with hk | hk
    · split at hk
      · obtain ⟨hk, hone⟩ := List.mem_filter.1 hk
        exact .inr ⟨(takeWhile_sublist _).subset hk, of_decide_eq_true hone⟩
      · cases hk
    · exact .inl hk
  · rintro rfl
    rfl

theorem allocCluster_eq_some : ∀ {fuel i c : ℕ}, s.allocCluster fuel i = some c → s.refcount c = 0
  | fuel + 1, i, c, h => by
    rw [allocCluster] at h
    split at h
    · next hi =>
      cases h
      exact hi
    · exact allocCluster_eq_some h

theorem copyTable_spec (pass : Bool) {c : ℕ} (hi : s.l1Table[i]? = some (t, false))
    (hc : s.refcount c = 0) (ht : t ≠ 0 → s.refcount t ≠ 0) (hq : s.discards = []) :
    (s.copyTable pass i t c).l1Table = s.l1Table.set i (c, true) ∧
    (s.copyTable pass i t c).taken = c :: s.taken ∧
    (s.copyTable pass i t c).host =
      Function.update s.host c (if t = 0 then fun _ => 0 else s.host t) ∧
    (∀ k, (s.copyTable pass i t c).refcount k = if k = c then 1
      else if t ≠ 0 ∧ k = t then s.refcount k - 1 else s.refcount k) ∧
    (∀ j, (s.copyTable pass i t c).table j = if j = i then c else s.table j) ∧
    (∀ k ∈ (s.copyTable pass i t c).discards, (s.copyTable pass i t c).refcount k = 0) ∧
    (pass = false → (s.copyTable pass i t c).discards = []) := by
  obtain ⟨hcount, hqueue, hoff⟩ := freeClusters_spec pass
    (l := if t = 0 then [] else [t]) (s := { s with
      l1Table := s.l1Table.set i (c, true)
      host := Function.update s.host c (if t = 0 then fun _ => 0 else s.host t)
      refcount := Function.update s.refcount c 1
      freeClusterIndex := c + 1
      taken := c :: s.taken }) (by grind)
  refine ⟨rfl, rfl, rfl, fun k => ?_, fun j => ?_, fun k hk => ?_, fun hp => (hoff hp).trans hq⟩
  · refine (hcount k).trans ?_
    grind
  · rw [table, table, copyTable, freeClusters, getD_eq_getElem?_getD, getElem?_set]
    grind
  · refine (hcount k).trans ?_
    have := hqueue k hk
    grind

/-- The table need not be copied. -/
def Copied (s : DiscardState) (i : ℕ) : Prop := ∃ t, s.l1Table[i]? = some (t, true)

/-- The table of the next entries is copied first, if it is shared. -/
theorem Progress.copy (h : f.Progress s₀ s lo g) (hq : s.discards = [] ∨ Copied s i)
    (hs : s.getClusterTable f.passthroughOther fuel i = some (s', t)) :
    f.Progress s₀ s' lo g ∧ s'.table i = t ∧ t ≠ 0 ∧
      ∀ j ≠ i, s'.l1Table[j]? = s.l1Table[j]? := by
  have ho := h.owned
  rw [getClusterTable] at hs
  split at hs
  · cases hs
  · next t' hi =>
    obtain ⟨rfl, rfl⟩ := Prod.mk.inj (Option.some.inj hs)
    exact ⟨h, by simp [table, hi], ho.copied _ (mem_of_getElem? hi), fun _ _ => rfl⟩
  · next t' hi =>
    obtain ⟨c, hc, hs⟩ := Option.map_eq_some_iff.1 hs
    obtain ⟨rfl, rfl⟩ := Prod.mk.inj hs
    replace hc := allocCluster_eq_some (Option.filter_eq_some_iff.1 hc).1
    have hti : s.table i = t' := by simp [table, hi]
    have hempty : s.discards = [] := hq.resolve_right fun ⟨t, ht⟩ => by simp [hi] at ht
    obtain ⟨hl1, htaken, hhost, hcount, htable, hqueue, hoff⟩ := copyTable_spec
      f.passthroughOther hi hc (fun _ => hti ▸ ho.used i) hempty
    obtain ⟨s', hs'⟩ := @exists_eq _ (s.copyTable f.passthroughOther i t' c)
    rw [← hs'] at hl1 htaken hhost hcount htable hqueue hoff ⊢
    have hct : ∀ j, s.table j ≠ c := fun j heq => ho.used j (heq.symm ▸ hc)
    have hc0 : c ≠ 0 := by
      rw [← table_length s]
      exact (hct _).symm
    have hentry : ∀ x, f.entry s' x = f.entry s x := by
      intro x
      rw [DiscardFormat.entry, DiscardFormat.entry, htable, hhost]
      by_cases hx : x / f.l2Size = i
      · rw [if_pos hx, if_neg hc0, update_self, hx, hti]
        split <;> rfl
      · rw [if_neg hx, update_of_ne (hct _)]
    have hrefs : ∀ k, f.refs s' k = f.refs s k := by
      intro k
      simp only [refs, hentry, hl1, length_set]
    refine ⟨⟨⟨fun k => ?_, fun j => ?_, fun j x => ?_, fun j j' hj heq => ?_,
      fun t ht => ?_⟩, fun x => ?_, fun x k hk => ?_, fun k hk hkt => ?_, fun j => ?_,
      fun k hk x => ?_, hqueue, fun _ hother => hoff hother⟩, by rw [htable, if_pos rfl], hc0,
      fun j hj => by rw [hl1, getElem?_set_ne (Ne.symm hj)]⟩
    · have hle := ho.refs k
      rw [hrefs, hcount]
      split
      · next hk =>
        rw [hk] at hle
        rw [hk]
        omega
      split
      · next hk =>
        have hempty : f.refs s k = ∅ := filter_eq_empty_iff.2 fun x _ => by
          have := ho.noData i x
          grind
        rw [hempty]
        exact zero_le _
      · exact hle
    · have := ho.used j
      have := ho.inj i j
      grind
    · have := ho.noData j x
      have := ho.not_mem (g := x) hc
      grind
    · have := ho.inj j j'
      grind
    · rw [hl1] at ht
      rcases mem_or_eq_of_mem_set ht with ht | ht
      · exact ho.copied t ht
      · cases ht
        exact hc0
    · rw [hentry, h.entry]
    · rw [hentry] at hk
      rw [hhost, update_of_ne fun heq => ho.not_mem hc (heq ▸ hk)]
      exact h.host x k hk
    · rw [htaken, List.mem_cons, not_or] at hkt
      have hne : ¬ (t' ≠ 0 ∧ k = t') := by
        rintro ⟨h0, rfl⟩
        have := h.tables i
        grind
      rw [hcount, if_neg hkt.1, if_neg hne]
      exact h.count k hk hkt.2
    · have := h.tables j
      grind
    · have := h.fresh k
      have := ho.not_mem (g := x) hc
      grind

/-- The state after an entry was dropped. -/
theorem discardEntry_spec (hv : 3 ≤ f.qcowVersion) (hskip : ¬ f.Skips (s.host t i))
    (hused : ∀ k ∈ f.hosts (s.host t i), s.refcount k ≠ 0) :
    (f.discardEntry s t i).l1Table = s.l1Table ∧ (f.discardEntry s t i).taken = s.taken ∧
    (f.discardEntry s t i).host = update s.host t (update (s.host t) i oflagZero) ∧
    (∀ k, (f.discardEntry s t i).refcount k =
      if k ∈ f.hosts (s.host t i) then s.refcount k - 1 else s.refcount k) ∧
    (∀ k ∈ (f.discardEntry s t i).discards,
      k ∈ s.discards ∨ k ∈ f.hosts (s.host t i) ∧ s.refcount k = 1) ∧
    (f.passthrough = false → (f.discardEntry s t i).discards = s.discards) := by
  rw [discardEntry, if_neg hskip, if_pos hv]
  exact ⟨rfl, rfl, rfl, freeClusters_spec _ hused⟩

/-- One entry of a table is discarded. -/
theorem Progress.step (h : f.Progress s₀ s lo g) (hlo : lo ≤ g) (hv : 3 ≤ f.qcowVersion)
    (ht : s.table (g / f.l2Size) ≠ 0) :
    f.Progress s₀ (f.discardEntry s (s.table (g / f.l2Size)) (g % f.l2Size)) lo (g + 1) ∧
    (f.discardEntry s (s.table (g / f.l2Size)) (g % f.l2Size)).l1Table = s.l1Table := by
  have ho := h.owned
  have he : f.entry s g = s.host (s.table (g / f.l2Size)) (g % f.l2Size) := if_neg ht
  have he₀ : f.entry s g = f.entry s₀ g := by
    rw [h.entry, if_neg (by omega)]
  have hico : Finset.Ico lo (g + 1) = insert g (Finset.Ico lo g) :=
    Ico_succ_right_eq_insert_Ico hlo
  by_cases hskip : f.Skips (f.entry s g)
  · rw [discardEntry, ← he, if_pos hskip]
    refine ⟨⟨ho, fun x => ?_, h.host, fun k hk hkt => ?_, h.tables, h.fresh, h.queue, h.off⟩, rfl⟩
    · rw [h.entry]
      grind
    · rw [hico, filter_insert, if_neg (by rw [← he₀]; exact fun hn => hn.1 hskip)]
      exact h.count k hk hkt
  have hused : ∀ k ∈ f.hosts (f.entry s g), s.refcount k ≠ 0 := fun k hk h0 => ho.not_mem h0 hk
  obtain ⟨hl1, htaken, hhost, hcount, hqueue, hoff⟩ :=
    discardEntry_spec hv (he ▸ hskip) (he ▸ hused)
  obtain ⟨s', hs'⟩ := @exists_eq _ (f.discardEntry s (s.table (g / f.l2Size)) (g % f.l2Size))
  rw [← hs'] at hl1 htaken hhost hcount hqueue hoff ⊢
  rw [← he] at hcount hqueue
  have htable : ∀ j, s'.table j = s.table j := fun j => by rw [table, hl1]; rfl
  have hentry : ∀ x, f.entry s' x = if x = g then oflagZero else f.entry s x := by
    intro x
    rw [DiscardFormat.entry, DiscardFormat.entry, hhost]
    have hx := div_add_mod x f.l2Size
    have hg := div_add_mod g f.l2Size
    have hinj := ho.inj (g / f.l2Size) (x / f.l2Size) ht
    simp only [update_apply]
    grind
  have hsub : ∀ x k, k ∈ f.hosts (f.entry s' x) → x ≠ g ∧ k ∈ f.hosts (f.entry s x) := by
    intro x k hk
    rw [hentry] at hk
    split at hk
    · cases hk
    · next hx => exact ⟨hx, hk⟩
  refine ⟨⟨⟨fun k => ?_, fun j => ?_, fun j x hx => ?_, fun j j' => ?_, ?_⟩, fun x => ?_,
    fun x k hk => ?_, fun k hk hkt => ?_, fun j => ?_, fun k hk x hx => ?_, fun k hk => ?_,
    fun hreq hother => by rw [hoff hreq, h.off hreq hother]⟩, hl1⟩
  · have hle := ho.refs k
    have hsubset : f.refs s' k ⊆ f.refs s k := fun x hx => by
      rw [refs, Finset.mem_filter] at hx
      exact mem_refs (hsub x k hx.2).2
    rw [hcount]
    split
    · next hk =>
      have hlt : f.refs s' k ⊆ (f.refs s k).erase g := fun x hx =>
        Finset.mem_erase.2 ⟨(hsub x k (Finset.mem_filter.1 hx).2).1, hsubset hx⟩
      have := card_le_card hlt
      rw [card_erase_of_mem (mem_refs hk)] at this
      omega
    · exact (card_le_card hsubset).trans hle
  · rw [htable, hcount, if_neg (ho.noData j g)]
    exact ho.used j
  · rw [htable] at hx
    exact ho.noData j x (hsub x _ hx).2
  · rw [htable, htable]
    exact ho.inj j j'
  · rw [hl1]
    exact ho.copied
  · have := h.entry x
    grind
  · obtain ⟨-, hk⟩ := hsub x k hk
    have hne : k ≠ s.table (g / f.l2Size) := fun heq => ho.noData (g / f.l2Size) x (heq ▸ hk)
    rw [hhost, update_of_ne hne]
    exact h.host x k hk
  · rw [htaken] at hkt
    have hold := h.count k hk hkt
    rw [hico, filter_insert, hcount]
    by_cases hkg : k ∈ f.hosts (f.entry s g)
    · have := hused k hkg
      rw [if_pos hkg, if_pos (by rw [← he₀]; exact ⟨hskip, hkg⟩), card_insert_of_notMem (by simp)]
      omega
    · rw [if_neg hkg, if_neg (by rw [← he₀]; exact fun hn => hkg hn.2)]
      exact hold
  · rw [htable, htaken]
    exact h.tables j
  · rw [htaken] at hk
    exact h.fresh k hk x (hsub x k hx).2
  · have := h.queue k
    have := hqueue k hk
    grind

theorem Progress.entries {q : ℕ} (hv : 3 ≤ f.qcowVersion) (ht : t ≠ 0) :
    ∀ {n i : ℕ} {s : DiscardState}, f.Progress s₀ s lo (q * f.l2Size + i) →
      lo ≤ q * f.l2Size + i → i + n ≤ f.l2Size → s.table q = t →
      f.Progress s₀ ((List.range' i n).foldl (fun s i => f.discardEntry s t i) s) lo
        (q * f.l2Size + i + n) ∧
      ((List.range' i n).foldl (fun s i => f.discardEntry s t i) s).l1Table = s.l1Table
  | 0, _, _, h, _, _, _ => ⟨h, rfl⟩
  | n + 1, i, s, h, hlo, hn, hq => by
    have hdiv : (q * f.l2Size + i) / f.l2Size = q := by
      rw [mul_comm, mul_add_div l2Size_pos, div_eq_of_lt (by omega), add_zero]
    have hmod : (q * f.l2Size + i) % f.l2Size = i := by
      rw [mul_add_mod_of_lt (by omega)]
    have hstep := h.step hlo hv (by rwa [hdiv, hq])
    rw [hdiv, hmod, hq] at hstep
    rw [range'_succ, show q * f.l2Size + i + (n + 1) = q * f.l2Size + (i + 1) + n by omega]
    have htable : (f.discardEntry s t i).table q = t := by
      rw [table, hstep.2]
      exact hq
    obtain ⟨hrest, hl1⟩ := Progress.entries (n := n) (i := i + 1) hv ht hstep.1 (by omega)
      (by omega) htable
    exact ⟨hrest, hl1.trans hstep.2⟩

/-- Where a table is copied nothing is queued : it is the first one, or no discards are passed
on. -/
theorem Progress.loop (hv : 3 ≤ f.qcowVersion) :
    ∀ {n g nb : ℕ} {s : DiscardState}, f.Progress s₀ s lo g → lo ≤ g →
      (f.passthrough = false ∧ f.passthroughOther = false ∨ ∀ x, g ≤ x → x < g + nb →
        s.discards = [] ∧ x / f.l2Size = g / f.l2Size ∨ Copied s (x / f.l2Size)) →
      f.discardLoop fuel n g nb s = some s' → f.Progress s₀ s' lo (g + nb)
  | n, g, 0, s, h, _, _, hs => by
    rw [discardLoop] at hs
    cases hs
    exact h
  | 0, _, _ + 1, _, _, _, _, hs => nomatch hs
  | n + 1, g, nb + 1, s, h, hlo, hrest, hs => by
    obtain ⟨r, hr, hs⟩ := Option.bind_eq_some_iff.1 hs
    obtain ⟨⟨s₁, t⟩, hs₁, rfl⟩ := Option.map_eq_some_iff.1 hr
    have hq : s.discards = [] ∨ Copied s (g / f.l2Size) := by
      rcases hrest with hoff | hrest
      · exact .inl (h.off hoff.1 hoff.2)
      · exact (hrest g le_rfl (by omega)).imp_left And.left
    obtain ⟨h₁, htable, ht, hother⟩ := h.copy hq hs₁
    have hlt := Nat.mod_lt g (l2Size_pos (f := f))
    have hg : g / f.l2Size * f.l2Size + g % f.l2Size = g := Nat.div_add_mod' g f.l2Size
    obtain ⟨m, hm⟩ := @exists_eq _ (min (nb + 1) (f.l2Size - g % f.l2Size))
    obtain ⟨h₂, hl1⟩ := Progress.entries (n := m) hv ht (hg.symm ▸ h₁) (hg.symm ▸ hlo) (by omega)
      htable
    rw [hg, hm] at h₂
    have := Progress.loop hv h₂ (by omega) (hrest.imp_right fun hrest x hx hx' => ?_) hs
    · rwa [add_assoc, Nat.add_sub_cancel' (min_le_left _ _)] at this
    · dsimp only at hx'
      have hdiv : g / f.l2Size + 1 ≤ x / f.l2Size := by
        rw [Nat.le_div_iff_mul_le l2Size_pos, Nat.add_one_mul]
        omega
      rcases hrest x (by omega) (by omega) with ⟨-, heq⟩ | ⟨t', ht'⟩
      · omega
      · exact .inr ⟨t', by rw [← hm, hl1, hother _ (by omega), ht']⟩

/-- What is queued has no references, so nothing that is read is discarded. -/
theorem Progress.process (h : f.Progress s₀ s lo g) : f.Progress s₀ (f.processDiscards s) lo g := by
  have ho := h.owned
  have hentry : ∀ x, f.entry (f.processDiscards s) x = f.entry s x := by
    intro x
    rw [DiscardFormat.entry, DiscardFormat.entry]
    refine if_congr Iff.rfl rfl ?_
    exact congrFun (if_neg fun hmem => ho.used _ (h.queue _ hmem)) _
  refine ⟨⟨fun k => ?_, ho.used, fun i x => ?_, ho.inj, ho.copied⟩, fun x => ?_,
    fun x k hk => ?_, h.count, h.tables, fun k hk x => ?_, fun k hk => absurd hk not_mem_nil,
    fun _ _ => rfl⟩
  · simp only [refs, hentry]
    exact ho.refs k
  · rw [hentry]
    exact ho.noData i x
  · rw [hentry, h.entry]
  · rw [hentry] at hk
    exact (if_neg fun hmem => ho.not_mem (h.queue k hmem) hk).trans (h.host x k hk)
  · rw [hentry]
    exact h.fresh k hk x

/-! ## What is read, and the counts -/

/-- A cluster is inside of the request. -/
def Inside (f : DiscardFormat) (offset nbSectors g : ℕ) : Prop :=
  offset ≤ g * f.clusterSize ∧ (g + 1) * f.clusterSize ≤ offset + nbSectors * 512

instance (offset nbSectors g : ℕ) : Decidable (f.Inside offset nbSectors g) :=
  inferInstanceAs (Decidable (_ ∧ _))

/-- The clusters inside of the request with data in the host cluster `k`. Those which have the
zero flag read as zeroes already and are left alone. -/
def dropped (f : DiscardFormat) (s : DiscardState) (offset nbSectors k : ℕ) : Finset ℕ :=
  (f.refs s k).filter fun g =>
    f.Inside offset nbSectors g ∧ getClusterType (f.entry s g) ≠ .zero

/-- The L2 tables of the request behind the first one need not be copied. -/
def CopiedBehind (f : DiscardFormat) (s : DiscardState) (offset nbSectors : ℕ) : Prop :=
  ∀ x y, f.Inside offset nbSectors x → f.Inside offset nbSectors y →
    x / f.l2Size < y / f.l2Size → Copied s (y / f.l2Size)

/-- The state `s'` is right after the request. A cluster that was freed may be taken for the copy
of an L2 table. -/
structure DiscardOk (f : DiscardFormat)
    (inflate : BitVec 64 → List (ℕ → BitVec 64) → ℕ → BitVec 64) (s s' : DiscardState)
    (offset nbSectors : ℕ) : Prop where
  zero : ∀ g, f.Inside offset nbSectors g → ∀ w, f.read inflate s' g w = 0
  same : ∀ g, ¬ f.Inside offset nbSectors g → ∀ w, f.read inflate s' g w = f.read inflate s g w
  count : ∀ k, (∀ i, s.table i ≠ k) → k ∉ s'.taken →
    s'.refcount k + (f.dropped s offset nbSectors k).card = s.refcount k

/-- The range of the loop is that of the clusters inside of the request. -/
theorem discardClusters_progress {offset nbSectors : ℕ} (hv : 3 ≤ f.qcowVersion) (ho : f.Owned s)
    (hs : s.taken = []) (hq : s.discards = []) (hn : nbSectors < 2 ^ 22)
    (hcopied : f.passthrough = false ∧ f.passthroughOther = false ∨
      f.CopiedBehind s offset nbSectors)
    (h : f.discardClusters fuel s offset nbSectors = some s') :
    ∃ lo hi, f.Progress s s' lo hi ∧ ∀ g, lo ≤ g ∧ g < hi ↔ f.Inside offset nbSectors g := by
  have hsize : 0 < f.clusterSize := Nat.two_pow_pos _
  have hbmod : Int.bmod (nbSectors * 512) (2 ^ 32) = (nbSectors * 512 : ℕ) := by
    rw [Int.bmod_eq_of_le] <;> push_cast <;> omega
  obtain ⟨lo, hlo⟩ := @exists_eq _ ((offset + (f.clusterSize - 1)) / f.clusterSize)
  obtain ⟨hi, hhi⟩ := @exists_eq _ ((offset + nbSectors * 512) / f.clusterSize)
  have hinside : ∀ g, lo ≤ g ∧ g < hi ↔ f.Inside offset nbSectors g := by
    intro g
    rw [Inside, hlo, hhi, ← succ_le_iff, le_div_iff_mul_le hsize,
      ← Nat.lt_succ_iff, Nat.div_lt_iff_lt_mul hsize, Nat.succ_mul]
    omega
  have h0 : f.Progress s s lo lo :=
    ⟨ho, fun x => by rw [if_neg (by omega)], fun _ _ _ => rfl, fun k _ _ => by simp,
      fun i => .inr rfl, by simp [hs], by simp [hq], fun _ _ => hq⟩
  rw [discardClusters, hbmod, ← cast_add, Int.toNat_natCast, ← hlo, ← hhi] at h
  split at h
  · cases h
    exact ⟨lo, lo, h0, fun g => by rw [← hinside]; omega⟩
  · obtain ⟨s₁, hs₁, rfl⟩ := Option.map_eq_some_iff.1 h
    refine ⟨lo, hi, Progress.process ?_, hinside⟩
    have := Progress.loop hv h0 le_rfl (hcopied.imp_right fun hcopied x hx hx' => ?_) hs₁
    · rwa [Nat.add_sub_cancel' (by omega)] at this
    · rcases (Nat.div_le_div_right (c := f.l2Size) hx).eq_or_lt with heq | hlt
      · exact .inl ⟨hq, heq.symm⟩
      · exact .inr (hcopied lo x ((hinside lo).1 (by omega)) ((hinside x).1 (by omega)) hlt)

/-- Where the entry and its data are the same, so is what is read. -/
theorem read_congr {inflate}
    (he : f.entry s' g = f.entry s g) (hh : ∀ k ∈ f.hosts (f.entry s g), s'.host k = s.host k)
    (w : ℕ) : f.read inflate s' g w = f.read inflate s g w := by
  rw [read, read, he]
  have hcases := getClusterType_cases (f.entry s g)
  split
  · rfl
  · rfl
  · next ht =>
    rw [hh]
    rw [hosts]
    grind
  · rw [map_congr_left hh]

variable {e : BitVec 64}

theorem skips_zero (h : getClusterType e = .zero) : f.Skips e := by
  have := getClusterType_cases e
  rw [Skips]
  grind

/-- An entry with data that is not compressed is dropped. -/
theorem not_skips (hk : k ∈ f.hosts e) (hz : getClusterType e ≠ .zero)
    (hc : getClusterType e = .compressed → ¬ f.Skips e) : ¬ f.Skips e := by
  have := getClusterType_cases e
  rw [hosts] at hk
  rw [Skips] at hc ⊢
  grind

theorem read_of_skips {inflate}
    (h : f.Skips (f.entry s g)) (hc : getClusterType (f.entry s g) ≠ .compressed) (w : ℕ) :
    f.read inflate s g w = 0 := by
  have := getClusterType_cases (f.entry s g)
  rw [Skips] at h
  rw [read]
  split
  · next ht =>
    have hb : f.backing = none := by grind
    rw [hb]
    rfl
  · rfl
  all_goals grind

theorem hosts_compressed (h : getClusterType e = .compressed) : ∃ k, k ∈ f.hosts e := by
  rw [hosts, h]
  refine ⟨_, mem_range'_1.2 ⟨le_rfl, ?_⟩⟩
  have := Nat.div_le_div_right (c := f.clusterSize) (show
    e.toNat % 2 ^ (62 - (f.clusterBits - 8)) / 512 * 512 ≤
      e.toNat % 2 ^ (62 - (f.clusterBits - 8)) / 512 * 512 +
        (e.toNat / 2 ^ (62 - (f.clusterBits - 8)) % 2 ^ (f.clusterBits - 8) + 1) * 512 - 1
    by omega)
  omega

/-- 512-byte clusters, and discards that are passed on. -/
def smallClusters : DiscardFormat := ⟨9, 3, none, true, true, fun _ _ => 0⟩

/-- The last entry of the first table is `e`, with data in the cluster 2, and the first one of the
second table is for the cluster 4. The first table may be shared. -/
def twoTables (e : BitVec 64) : DiscardState where
  l1Table := [(1, false), (3, true)]
  host k i := if k = 1 then if i = 63 then e else 0
    else if k = 3 then if i = 0 then 2048 else 0 else 7
  refcount k := if k < 5 then 1 else 0
  described k := k < 256
  freeClusterIndex := 5
  discards := []
  taken := []

theorem table_twoTables (e : BitVec 64) :
    ∀ i, (twoTables e).table i = if i = 0 then 1 else if i = 1 then 3 else 0
  | 0 => rfl
  | 1 => rfl
  | _ + 2 => rfl

theorem entry_twoTables (e : BitVec 64) (g : ℕ) : smallClusters.entry (twoTables e) g =
    if g = 63 then e else if g = 64 then 2048 else 0 := by
  have hsize : smallClusters.l2Size = 64 := rfl
  rw [entry, table_twoTables, hsize, twoTables]
  grind

theorem owned_twoTables (h : smallClusters.hosts e = [2]) :
    smallClusters.Owned (twoTables e) := by
  have hhosts : ∀ g k, k ∈ smallClusters.hosts (smallClusters.entry (twoTables e) g) →
      g = 63 ∧ k = 2 ∨ g = 64 ∧ k = 4 := by
    intro g k hk
    rw [entry_twoTables] at hk
    split at hk
    · next hg => exact .inl ⟨hg, List.mem_singleton.1 (h ▸ hk)⟩
    split at hk
    · next hg => exact .inr ⟨hg, List.mem_singleton.1 (show k ∈ [4] from hk)⟩
    · cases hk
  refine ⟨fun k => ?_, fun i => ?_, fun i g hk => ?_, fun i j => ?_, fun t ht => ?_⟩
  · rcases eq_empty_or_nonempty (smallClusters.refs (twoTables e) k) with h0 | ⟨g, hg⟩
    · rw [h0]
      exact zero_le _
    · have hone : (smallClusters.refs (twoTables e) k).card ≤ 1 := Finset.card_le_one.2
        fun x hx y hy => by
          have := hhosts x k (Finset.mem_filter.1 hx).2
          have := hhosts y k (Finset.mem_filter.1 hy).2
          omega
      have hk := hhosts g k (Finset.mem_filter.1 hg).2
      exact hone.trans (if_pos (show k < 5 by omega)).ge
  · rw [table_twoTables, twoTables]
    grind
  · have := hhosts g _ hk
    grind [table_twoTables]
  · grind [table_twoTables]
  · have := List.mem_pair.1 ht
    grind

theorem inside_twoTables {g : ℕ} : smallClusters.Inside (63 * 512) 2 g ↔ g = 63 ∨ g = 64 := by
  change 63 * 512 ≤ g * 512 ∧ (g + 1) * 512 ≤ 63 * 512 + 2 * 512 ↔ _
  omega

end DiscardFormat

end QemuArm
