import QemuArm.HBitmapRefine
import QemuArm.Reach

/-!
# Iterating over a bitmap that changes

`hbitmap_set` and `hbitmap_reset` rewrite the levels under an iterator. `Standing` survives every
change that leaves the set groups from `t` on alone (`Standing.of_change`), and
`hbitmap_iter_next` keeps it.

`hbitmapIteration_iff` : the contract of `hbitmap_iter_init` under changes holds for a
bitmap exactly when its groups start below `2 ^ 63`, the positions that the `int64_t`
result of `hbitmap_iter_next` can return.
-/

open Word

namespace QemuArm

open HBitmap Option

/-! ## Changes under an iterator -/

variable {hb : HBitmap}

/-- The copies stay good under every change that keeps the set groups from `t` on : their
bits stand for such groups. -/
theorem Standing.of_change {hb' owed hbi p t}
    (h : Standing hb owed hbi p t) (hit : hb.Iterable) (hit' : hb'.Iterable)
    (hgran : hb'.granularity = hb.granularity)
    (hkeep : ∀ k, t ≤ k → hb.bit 6 k = true → hb'.bit 6 k = true) :
    Standing hb' owed hbi p t where
  granularity := h.granularity.trans hgran.symm
  pos := h.pos
  inside := h.inside
  sentinel := h.sentinel
  upper l hl := by
    refine ⟨fun b hb64 hbit => ?_, (h.upper l hl).path⟩
    obtain ⟨hset, hthr⟩ := (h.upper l hl).sound b hb64 hbit
    refine ⟨?_, hthr⟩
    by_cases hs : l = 0 ∧ pathAt p l / 64 * 64 + b = 63
    · rw [hs.2, hs.1]
      exact hit'.sentinel
    · obtain ⟨k, hk, hbitk⟩ := hit.exists_below (6 - l) l _ (by omega) hs hset
      have hword := lt_of_pathAt_lt hl (show pathAt p l < pathAt k l by omega)
      have hstop := h.stop
      rw [← hk]
      exact bit_pathAt_le hit' (hkeep k (by omega) hbitk) (by omega)
  start := h.start
  stop := h.stop
  last := by
    refine ⟨fun b hb64 hbit => ?_, h.last.path⟩
    obtain ⟨hset, hthr⟩ := h.last.sound b hb64 hbit
    exact ⟨hkeep _ hthr hset, hthr⟩
  owed_set k hk := ⟨(h.owed_set k hk).1, hkeep k (h.owed_set k hk).1 (h.owed_set k hk).2⟩

/-! ## Runs -/

/-- A bitmap with an iterator over it. `returned` and `ended` are history : the positions
that `hbitmap_iter_next` has returned, and whether it has returned -1. -/
structure IterRun where
  hb : HBitmap
  hbi : HBitmapIter
  returned : List ℤ
  ended : Bool

inductive IterOp where
  | modify (op : HBOp)
  | next

def iterStep : IterOp → IterRun → Option IterRun
  | .modify op, r => do
    let hb ← hbStep r.hb op
    some { r with hb := hb }
  | .next, r => do
    let (hbi, item) ← hbitmapIterNext r.hb r.hbi
    if item = -1 then some { r with hbi := hbi, ended := true }
    else some { r with hbi := hbi, returned := r.returned ++ [item] }

/-- Any set inside the bitmap, and a reset of groups at or before the last position
returned. -/
def IterAllowed (size granularity : ℕ) (r : IterRun) : IterOp → Prop
  | .modify (.set start count) => (HBOp.set start count).Inside size
  | .modify (.reset start count) => (HBOp.reset start count).Inside size ∧
    ∃ last, r.returned.getLast? = some last ∧
      ∀ j, (HBOp.reset start count).Touches granularity j → ((j * 2 ^ granularity : ℕ) : ℤ) ≤ last
  | .next => True

/-- What an iteration over `hb₀` from `first` on shows at any time. A group of `hb₀` has
been reached when the iteration has ended or has returned its position or a later one. -/
structure IterContract (granularity first : ℕ) (hb₀ : HBitmap) (r : IterRun) : Prop where
  next : ∃ result, hbitmapIterNext r.hb r.hbi = some result
  increasing : r.returned.Pairwise (· < ·)
  bounded : r.returned.length ≤ hb₀.size
  once : ∀ j, hb₀.bit (hbitmapLevels - 1) j = true → first / 2 ^ granularity ≤ j →
    (r.ended = true ∨ ∃ item ∈ r.returned, ((j * 2 ^ granularity : ℕ) : ℤ) ≤ item) →
    r.returned.count ((j * 2 ^ granularity : ℕ) : ℤ) = 1

/-- The contract of `hbitmap_iter_init` under changes, for every bitmap of this size and
granularity, whatever was set and reset before, and every iteration over it. -/
def HBitmapIteration (size granularity : ℕ) : Prop :=
  ∀ hb, hbitmapAlloc size granularity = some hb →
  ∀ ops : List HBOp, (∀ op ∈ ops, op.Inside size) → ∀ hb₀, hbRun hb ops = some hb₀ →
  ∀ first hbi, hbitmapIterInit hb₀ first = some hbi →
  ∀ r, Reach iterStep (IterAllowed size granularity) ⟨hb₀, hbi, [], false⟩ r →
    IterContract granularity first hb₀ r

/-- The invariant of a run : the positions returned are those of `groups`, which are before
`t` and have every group of `hb₀` that is. -/
structure IterRunInv (first : ℕ) (hb₀ : HBitmap) (groups : List ℕ) (p t : ℕ) (r : IterRun) :
    Prop where
  wf : r.hb.WF
  size : r.hb.size = hb₀.size
  granularity : r.hb.granularity = hb₀.granularity
  standing : Standing r.hb (fun k => hb₀.bit 6 k = true ∧ t ≤ k) r.hbi p t
  returned : r.returned = groups.map fun j => ((j * 2 ^ hb₀.granularity : ℕ) : ℤ)
  sorted : groups.Pairwise (· < ·)
  passed : ∀ j ∈ groups, j < t ∧ j < hb₀.size
  complete : ∀ j, hb₀.bit 6 j = true → first / 2 ^ hb₀.granularity ≤ j → j < t → j ∈ groups
  ended : r.ended = true → ∀ j, hb₀.bit 6 j = true → j < t

def IterRunSafe (first : ℕ) (hb₀ : HBitmap) (r : IterRun) : Prop :=
  ∃ groups p t, IterRunInv first hb₀ groups p t r

section Run

variable {size first : ℕ} {hb₀ : HBitmap}

theorem mul_pow_le_iff {g j k} : ((j * 2 ^ g : ℕ) : ℤ) ≤ ((k * 2 ^ g : ℕ) : ℤ) ↔ j ≤ k := by
  rw [Int.ofNat_le]
  exact Nat.mul_le_mul_right_iff (by positivity)

variable {groups : List ℕ} {r : IterRun}

/-- A group touched by an allowed reset has been dealt with. -/
theorem IterRunInv.lt_of_touches {p t} (h : IterRunInv first hb₀ groups p t r)
    {start count} (hok : IterAllowed size hb₀.granularity r (.modify (.reset start count)))
    {j} (hj : (HBOp.reset start count).Touches hb₀.granularity j) : j < t := by
  obtain ⟨-, last, hlast, hle⟩ := hok
  have hmem := List.mem_of_getLast? hlast
  rw [h.returned, List.mem_map] at hmem
  obtain ⟨k, hk, rfl⟩ := hmem
  exact (mul_pow_le_iff.1 (hle j hj)).trans_lt (h.passed k hk).1

theorem IterRunInv.modify {p t} (hsize : size ≤ 2 ^ 64)
    (hfit : ∀ i < size, i / 2 ^ hb₀.granularity < hb₀.size)
    (h : IterRunInv first hb₀ groups p t r) {op}
    (hok : IterAllowed size hb₀.granularity r (.modify op)) (hs : hbStep r.hb op = some hb) :
    IterRunInv first hb₀ groups p t { r with hb := hb } := by
  have hin : op.Inside size := by
    cases op with
    | set start count => exact hok
    | reset start count => exact hok.1
  obtain ⟨hb', hs', hwf, hsz, hgr, hbits⟩ :=
    hbStep_spec h.wf hsize (by rwa [h.granularity, h.size]) hin
  obtain rfl := some.inj (hs.symm.trans hs')
  refine { h with
    wf := hwf
    size := hsz.trans h.size
    granularity := hgr.trans h.granularity
    standing := h.standing.of_change h.wf.iterable hwf.iterable hgr fun k hk hbit => ?_ }
  refine (hbits k).2 (.inr ⟨hbit, ?_⟩)
  cases op with
  | set start count => simp [NoReset]
  | reset start count =>
    intro s c hmem htouch
    rw [List.mem_singleton] at hmem
    rw [hmem, h.granularity] at htouch
    have := h.lt_of_touches hok htouch
    omega

theorem IterRunInv.next {p t r'} (hsmall : ∀ j < hb₀.size, j * 2 ^ hb₀.granularity < 2 ^ 63)
    (h : IterRunInv first hb₀ groups p t r) (hs : iterStep .next r = some r') :
    IterRunSafe first hb₀ r' := by
  rcases hbitmapIterNext_standing h.wf.iterable h.standing with
    ⟨hnone, hr⟩ | ⟨hbi', j, hr, htj, hbit, hmin, hst⟩
  · rw [iterStep, hr] at hs
    cases hs
    refine ⟨groups, p, t, { h with ended := fun _ j hj => ?_ }⟩
    by_contra hge
    exact hnone j ⟨hj, not_lt.1 hge⟩
  · have hjs : j < hb₀.size := h.size ▸ h.wf.inside j hbit
    rw [iterStep, hr, h.granularity, toInt_ofNat_of_lt (hsmall j hjs)] at hs
    cases hs
    refine ⟨groups ++ [j], j, j + 1, ⟨h.wf, h.size, h.granularity, ?_, ?_, ?_, ?_, ?_, ?_⟩⟩
    · exact hst.mono fun k hk => ⟨⟨hk.1, by omega⟩, hk.2⟩
    · simp [h.returned]
    · rw [List.pairwise_append]
      refine ⟨h.sorted, List.pairwise_singleton _ _, fun k hk l hl => ?_⟩
      rw [List.mem_singleton.1 hl]
      exact (h.passed k hk).1.trans_le htj
    · intro k hk
      rcases List.mem_append.1 hk with hk | hk
      · exact ⟨by have := (h.passed k hk).1; omega, (h.passed k hk).2⟩
      · rw [List.mem_singleton.1 hk]
        exact ⟨Nat.lt_succ_self j, hjs⟩
    · intro k hk hfirst hlt
      rw [List.mem_append, List.mem_singleton]
      rcases lt_or_ge k t with hkt | hkt
      · exact .inl (h.complete k hk hfirst hkt)
      · exact .inr (le_antisymm (by omega) (hmin k ⟨hk, hkt⟩))
    · intro hend k hk
      have := h.ended hend k hk
      omega

theorem IterRunSafe.step (hsize : size ≤ 2 ^ 64)
    (hfit : ∀ i < size, i / 2 ^ hb₀.granularity < hb₀.size)
    (hsmall : ∀ j < hb₀.size, j * 2 ^ hb₀.granularity < 2 ^ 63) (r : IterRun) (op : IterOp)
    (r' : IterRun) (h : IterRunSafe first hb₀ r) (hok : IterAllowed size hb₀.granularity r op)
    (hs : iterStep op r = some r') : IterRunSafe first hb₀ r' := by
  obtain ⟨groups, p, t, h⟩ := h
  cases op with
  | modify op =>
    obtain ⟨hb, hb', hs⟩ := bind_eq_some_iff.1 hs
    cases hs
    exact ⟨groups, p, t, h.modify hsize hfit hok hb'⟩
  | next => exact h.next hsmall hs

theorem IterRunSafe.contract (h : IterRunSafe first hb₀ r) :
    IterContract hb₀.granularity first hb₀ r := by
  obtain ⟨groups, p, t, h⟩ := h
  have hinc : r.returned.Pairwise (· < ·) := by
    rw [h.returned, List.pairwise_map]
    refine h.sorted.imp fun hlt => ?_
    rw [lt_iff_not_ge, mul_pow_le_iff]
    omega
  refine ⟨?_, hinc, ?_, fun j hj hfirst hreached => ?_⟩
  · rcases hbitmapIterNext_standing h.wf.iterable h.standing with ⟨-, hr⟩ | ⟨hbi', j, hr, -⟩
    · exact ⟨_, hr⟩
    · exact ⟨_, hr⟩
  · rw [h.returned]
    have hsub : groups ⊆ List.range hb₀.size := fun j hj => List.mem_range.2 (h.passed j hj).2
    have hnodup : groups.Nodup := h.sorted.imp fun hlt => hlt.ne
    simpa using (hnodup.subperm hsub).length_le
  · have hlt : j < t := by
      rcases hreached with hend | ⟨item, hitem, hle⟩
      · exact h.ended hend j hj
      · rw [h.returned, List.mem_map] at hitem
        obtain ⟨k, hk, rfl⟩ := hitem
        exact (mul_pow_le_iff.1 hle).trans_lt (h.passed k hk).1
    refine List.count_eq_one_of_mem (hinc.imp fun hlt => hlt.ne) ?_
    rw [h.returned]
    exact List.mem_map_of_mem (h.complete j hj hfirst hlt)

end Run

/-! ## The contract -/

theorem hbitmapIterInit_lt {first hbi}
    (h : hbitmapIterInit hb first = some hbi) : first / 2 ^ hb.granularity < hb.size := by
  by_contra hge
  rw [hbitmapIterInit, if_neg hge] at h
  cases h

/-- A bitmap with no group refuses every call. -/
theorem hbStep_of_size_zero (h : hb.size = 0) (op : HBOp) : hbStep hb op = none := by
  cases op with
  | set start count => exact hbitmapSet_of_size_zero h start count
  | reset start count => simp [hbStep, hbitmapReset, hbCountBetween, hbitmapIterInit, h]

variable {size granularity : ℕ}

theorem hbitmapIteration_of_size_zero (halloc : hbitmapAlloc size granularity = some hb)
    (h0 : hb.size = 0) : HBitmapIteration size granularity := by
  intro hb' halloc' ops _ hb₀ hrun first hbi hinit
  obtain rfl := some.inj (halloc.symm.trans halloc')
  cases ops with
  | nil =>
    cases hrun
    exact absurd (h0 ▸ hbitmapIterInit_lt hinit) (Nat.not_lt_zero _)
  | cons op ops =>
    rw [hbRun, hbStep_of_size_zero h0] at hrun
    cases hrun

/-- A bitmap with groups did not wrap : its last group has its last element. -/
theorem size_of_hbitmapAlloc (hsize : size < 2 ^ 64)
    (halloc : hbitmapAlloc size granularity = some hb) (hne : hb.size ≠ 0) :
    1 ≤ size ∧ hb.size = (size - 1) / 2 ^ granularity + 1 := by
  obtain ⟨hg, hs, -⟩ := hbitmapAlloc_spec halloc
  have hpos : 1 ≤ size := by
    rcases Nat.eq_zero_or_pos size with rfl | h
    · exact absurd (hs.trans (groupsOf_zero granularity)) hne
    · exact h
  have hfit : size + 2 ^ granularity ≤ 2 ^ 64 := by
    by_contra hwrap
    exact hne (hs.trans (groupsOf_eq_zero hg hsize (not_le.1 hwrap)))
  exact ⟨hpos, hs.trans (groupsOf_eq hpos hfit)⟩

theorem hbitmapIteration_of_le (hsize : size < 2 ^ 64)
    (halloc : hbitmapAlloc size granularity = some hb) (h : hb.size * 2 ^ granularity ≤ 2 ^ 63) :
    HBitmapIteration size granularity := by
  rcases eq_or_ne hb.size 0 with h0 | hne
  · exact hbitmapIteration_of_size_zero halloc h0
  obtain ⟨hpos, hs⟩ := size_of_hbitmapAlloc hsize halloc hne
  intro hb' halloc' ops hops hb₀ hrun first hbi hinit r hreach
  obtain rfl := some.inj (halloc.symm.trans halloc')
  obtain ⟨-, -, hgr, hwf, -⟩ := hbitmapAlloc_spec halloc
  have hfit : ∀ i < size, i / 2 ^ granularity < hb.size := by
    intro i hi
    rw [hs]
    exact Nat.lt_succ_of_le (Nat.div_le_div_right (by omega))
  obtain ⟨hb₁, hrun₁, hwf₁, hs₁, hgr₁, -⟩ := hbRun_spec hsize.le ops hwf (by rwa [hgr]) hops
  obtain rfl := some.inj (hrun.symm.trans hrun₁)
  rw [hgr] at hgr₁
  subst hgr₁
  have hlt := hbitmapIterInit_lt hinit
  obtain ⟨hbi₁, hinit₁, hinv⟩ := hbitmapIterInit_spec first hlt (hwf₁.covers hlt)
    (pathAt_zero_lt (hlt.trans_le hwf₁.size_le))
  obtain rfl := some.inj (hinit.symm.trans hinit₁)
  have hstart : IterRunSafe first hb₀ ⟨hb₀, hbi, [], false⟩ :=
    ⟨[], _, _, ⟨hwf₁, rfl, rfl, hinv.standing hwf₁.iterable, rfl, List.Pairwise.nil, by simp,
      fun j _ h1 h2 => absurd h1 (not_le.2 h2), by simp⟩⟩
  have hsmall : ∀ j < hb₀.size, j * 2 ^ hb₀.granularity < 2 ^ 63 := by
    intro j hj
    calc j * 2 ^ hb₀.granularity < hb₀.size * 2 ^ hb₀.granularity :=
          Nat.mul_lt_mul_of_pos_right hj (by positivity)
      _ ≤ 2 ^ 63 := hs₁ ▸ h
  exact (hreach.invariant hstart (IterRunSafe.step hsize.le (by rwa [hs₁]) hsmall)).contract

/-- The last group of a bitmap that reaches past `2 ^ 63` starts there or later. -/
theorem le_last_group {n} (hg : granularity < 64) (h : 2 ^ 63 < n * 2 ^ granularity) :
    2 ^ 63 ≤ (n - 1) * 2 ^ granularity := by
  obtain ⟨m, hm⟩ : 2 ^ granularity ∣ 2 ^ 63 := Nat.pow_dvd_pow 2 (by omega)
  rw [hm, mul_comm] at h ⊢
  exact Nat.mul_le_mul_right _ (Nat.le_sub_one_of_lt (Nat.lt_of_mul_lt_mul_right h))

/-- The last group is returned as another position. -/
theorem not_hbitmapIteration_of_lt (hsize : size < 2 ^ 64)
    (halloc : hbitmapAlloc size granularity = some hb) (h : 2 ^ 63 < hb.size * 2 ^ granularity) :
    ¬HBitmapIteration size granularity := by
  intro hiter
  have hne : hb.size ≠ 0 := by
    intro h0
    simp [h0] at h
  obtain ⟨hpos, hs⟩ := size_of_hbitmapAlloc hsize halloc hne
  obtain ⟨hg, -, hgr, hwf, hempty⟩ := hbitmapAlloc_spec halloc
  obtain ⟨p, hp⟩ := @exists_eq _ ((size - 1) / 2 ^ granularity)
  have hbig := le_last_group hg h
  rw [hs, ← hp] at hbig
  have hops : ∀ op ∈ [HBOp.set (size - 1) 1], op.Inside size := by
    simp only [List.mem_singleton, forall_eq, HBOp.Inside]
    omega
  obtain ⟨hb₀, hrun, hwf₀, hs₀, hgr₀, hbits⟩ := hbRun_spec hsize.le [.set (size - 1) 1] hwf
    (by
      intro i hi
      rw [hs, hgr]
      exact Nat.lt_succ_of_le (Nat.div_le_div_right (by omega))) hops
  rw [hgr] at hgr₀
  subst hgr₀
  have hlt : (size - 1) / 2 ^ hb₀.granularity < hb₀.size := by omega
  obtain ⟨hbi, hinit, hinv⟩ := hbitmapIterInit_spec (size - 1) hlt (hwf₀.covers hlt)
    (pathAt_zero_lt (hlt.trans_le hwf₀.size_le))
  rw [← hp] at hinv
  have hbit : hb₀.bit 6 p = true := by
    refine (hbits p).2 (.inl ⟨[], size - 1, 1, [], rfl, ?_, by simp [NoReset]⟩)
    rw [hgr]
    exact ⟨hp.ge, hp.le.trans (Nat.div_le_div_right (by omega))⟩
  -- one call moves past the group, and what it returns is not its position
  obtain ⟨hbi', j, hr, hj, hbitj, -, hinv'⟩ :=
    (hbitmapIterNext_spec hwf₀.iterable hinv).resolve_left
      fun hnone => absurd (hnone.1 p le_rfl) (by simp [hbit])
  obtain rfl : p = j := by
    have := hwf₀.inside j hbitj
    omega
  have hitem := hbitmapIterNext_lt hr
  obtain ⟨item, hitem'⟩ := @exists_eq _ ((BitVec.ofNat 64 (p * 2 ^ hb₀.granularity)).toInt)
  rw [← hitem'] at hr hitem
  have hnot : item ≠ ((p * 2 ^ hb₀.granularity : ℕ) : ℤ) := by
    intro heq
    rw [heq] at hitem
    exact absurd hitem (not_lt.2 (by exact_mod_cast hbig))
  have hone : ∀ r : IterRun, Reach iterStep (IterAllowed size hb₀.granularity)
      ⟨hb₀, hbi, [], false⟩ r → r.ended = true →
      ((p * 2 ^ hb₀.granularity : ℕ) : ℤ) ∈ r.returned := by
    intro r hreach hend
    have hc := hiter hb halloc _ hops hb₀ hrun (size - 1) hbi hinit r hreach
    refine List.count_pos_iff.1 ?_
    rw [hc.once p hbit hp.ge (.inl hend)]
    exact Nat.one_pos
  by_cases hend : item = -1
  · have hmem := hone ⟨hb₀, hbi', [], true⟩
      (Reach.refl.tail (i := .next) trivial (by simp [iterStep, hr, hend])) rfl
    exact List.not_mem_nil hmem
  · obtain ⟨-, hr'⟩ := (hbitmapIterNext_spec hwf₀.iterable hinv').resolve_right (by
      rintro ⟨_, k, -, hk, hbitk, -⟩
      have := hwf₀.inside k hbitk
      omega)
    have hmem := hone ⟨hb₀, hbi', [item], true⟩
      ((Reach.refl.tail (i := .next) trivial
        (show iterStep .next _ = some ⟨hb₀, hbi', [item], false⟩ by simp [iterStep, hr, hend])).tail
        (i := .next) trivial (by simp [iterStep, hr'])) rfl
    exact hnot (List.mem_singleton.1 hmem).symm

/-- Iterations over the bitmaps that `hbitmap_alloc` accepts meet the contract under
changes exactly when all their positions are values of `int64_t`. -/
theorem hbitmapIteration_iff (hsize : size < 2 ^ 64)
    (halloc : hbitmapAlloc size granularity = some hb) :
    HBitmapIteration size granularity ↔ hb.size * 2 ^ granularity ≤ 2 ^ 63 := by
  refine ⟨fun h => ?_, hbitmapIteration_of_le hsize halloc⟩
  by_contra hgt
  exact not_hbitmapIteration_of_lt hsize halloc (not_le.1 hgt) h

/-- Sixteen elements in groups of two. -/
theorem hbitmapIteration_sixteen : HBitmapIteration 16 1 :=
  (hbitmapIteration_iff (by decide)
    (some_get (by decide : (hbitmapAlloc 16 1).isSome)).symm).2 (by decide)

/-- The third group of this bitmap starts at `2 ^ 63`. -/
theorem not_hbitmapIteration_three : (hbitmapAlloc (3 * 2 ^ 62) 62).isSome ∧
    ¬HBitmapIteration (3 * 2 ^ 62) 62 :=
  ⟨by decide, not_hbitmapIteration_of_lt (by decide)
    (some_get (by decide : (hbitmapAlloc (3 * 2 ^ 62) 62).isSome)).symm (by decide)⟩

end QemuArm
