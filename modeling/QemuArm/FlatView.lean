import QemuArm.MemoryRegion

/-!
# What a flat view says about an address

Over the integers, a list of ranges that are sorted, disjoint, not empty and inside the
64-bit space (`ViewOK`) is a partial function on addresses, `viewAt`. Rendering a region
into the gaps of a view adds the addresses that the view does not cover
(`renderGaps_spec`), and merging ranges changes nothing (`flatviewSimplify_spec`).

The renderer asserts that every step fits 64 bits, which fails for one view only : the
one whose single range covers the whole space, under a region that covers it too.
-/

namespace QemuArm

open List Option

open AddressArith

/-- What is mapped at an address. -/
@[ext]
structure Resolved where
  mr : MrPtr
  offset : ℤ
  romdMode : Bool
  readonly : Bool
deriving DecidableEq

namespace FlatRange

def Covers (r : FlatRange ℤ) (a : ℤ) : Prop := r.addr.start ≤ a ∧ a < r.addr.start + r.addr.size

instance (r : FlatRange ℤ) (a : ℤ) : Decidable (r.Covers a) := inferInstanceAs (Decidable (_ ∧ _))

/-- What the range maps at the address `a`. -/
def resolved (r : FlatRange ℤ) (a : ℤ) : Resolved :=
  ⟨r.mr, r.offsetInRegion.toNat + (a - r.addr.start), r.romdMode, r.readonly⟩

/-- The range covers the 64-bit space. -/
def Full (r : FlatRange ℤ) : Prop := r.addr.start = 0 ∧ r.addr.size = 2 ^ 64

end FlatRange

/-- What the view maps at the address `a`. -/
def viewAt : FlatView ℤ → ℤ → Option Resolved
  | [], _ => none
  | r :: view, a => if r.Covers a then some (r.resolved a) else viewAt view a

/-- The ranges are sorted, disjoint, not empty and inside the 64-bit space. -/
structure ViewOK (view : FlatView ℤ) : Prop where
  sorted : view.Pairwise fun r s => r.addr.start + r.addr.size ≤ s.addr.start
  pos : ∀ r ∈ view, 0 < r.addr.size
  start : ∀ r ∈ view, 0 ≤ r.addr.start
  stop : ∀ r ∈ view, r.addr.start + r.addr.size ≤ 2 ^ 64

theorem viewOK_nil : ViewOK [] :=
  ⟨Pairwise.nil, by simp, by simp, by simp⟩

variable {r : FlatRange ℤ} {view : FlatView ℤ}

theorem viewOK_cons :
    ViewOK (r :: view) ↔ (∀ s ∈ view, r.addr.start + r.addr.size ≤ s.addr.start) ∧
      0 < r.addr.size ∧ 0 ≤ r.addr.start ∧ r.addr.start + r.addr.size ≤ 2 ^ 64 ∧ ViewOK view := by
  constructor
  · rintro ⟨h1, h2, h3, h4⟩
    obtain ⟨h1, h1'⟩ := pairwise_cons.1 h1
    simp only [mem_cons, forall_eq_or_imp] at h2 h3 h4
    exact ⟨h1, h2.1, h3.1, h4.1, h1', h2.2, h3.2, h4.2⟩
  · rintro ⟨h1, h2, h3, h4, h5⟩
    refine ⟨pairwise_cons.2 ⟨h1, h5.sorted⟩, ?_, ?_, ?_⟩ <;>
      simp
    · exact ⟨h2, h5.pos⟩
    · exact ⟨h3, h5.start⟩
    · exact ⟨h4, h5.stop⟩

variable {a : ℤ}

theorem viewAt_pos (h : r.Covers a) (view : FlatView ℤ) :
    viewAt (r :: view) a = some (r.resolved a) := if_pos h

theorem viewAt_neg (h : ¬r.Covers a) (view : FlatView ℤ) :
    viewAt (r :: view) a = viewAt view a := if_neg h

theorem viewAt_eq_none (h : ∀ r ∈ view, ¬r.Covers a) : viewAt view a = none := by
  induction view with
  | nil => rfl
  | cons r view ih =>
    rw [viewAt_neg (h r (by simp)), ih fun s hs => h s (by simp [hs])]

/-- Below its first range a view maps nothing. -/
theorem viewAt_of_lt {b} (h : ∀ r ∈ view, b ≤ r.addr.start) (hab : a < b) : viewAt view a = none :=
  viewAt_eq_none fun r hr hc => by
    have := h r hr
    have := hc.1
    omega

/-! ## Filling the gaps -/

theorem assert64_int (h0 : 0 ≤ a) (h1 : a < 2 ^ 64) : assert64 a = .ok (BitVec.ofInt 64 a) := by
  have hget : get64 a = some (BitVec.ofInt 64 a) := if_pos ⟨h0, h1⟩
  rw [assert64, hget]

/-- What `[base, base + remain)` maps at `a`, in a region that begins at `origin`. -/
def gapAt (fr : FlatRange ℤ) (origin base remain a : ℤ) : Option Resolved :=
  if base ≤ a ∧ a < base + remain then some ⟨fr.mr, a - origin, fr.romdMode, fr.readonly⟩ else none

variable {fr : FlatRange ℤ} {base : ℤ}

theorem gapAt_zero {origin} : gapAt fr origin base 0 a = none :=
  if_neg (by omega)

variable {remain : ℤ}

theorem gapAt_split {origin now} (h0 : 0 ≤ now) (h1 : now ≤ remain) :
    gapAt fr origin base remain a =
      (gapAt fr origin base now a).or (gapAt fr origin (base + now) (remain - now) a) := by
  unfold gapAt
  by_cases h : base ≤ a ∧ a < base + now
  · rw [if_pos h, if_pos (by omega)]
    rfl
  · rw [if_neg h, none_or]
    by_cases h' : base + now ≤ a ∧ a < base + now + (remain - now)
    · rw [if_pos h', if_pos (by omega)]
    · rw [if_neg h', if_neg (by omega)]

/-- The range that the renderer inserts at `base`, of `now` bytes. -/
def insertedAt (fr : FlatRange ℤ) (origin base now : ℤ) : FlatRange ℤ :=
  { fr with offsetInRegion := BitVec.ofInt 64 (base - origin), addr := ⟨base, now⟩ }

theorem viewAt_insertedAt {origin now} (h0 : origin ≤ base) (h1 : base - origin < 2 ^ 64)
    (view : FlatView ℤ) (a : ℤ) :
    viewAt (insertedAt fr origin base now :: view) a =
      (gapAt fr origin base now a).or (viewAt view a) := by
  have hoff : ((BitVec.ofInt 64 (base - origin)).toNat : ℤ) = base - origin := by
    rw [Int128.toNat_ofInt_64, Int.emod_eq_of_lt (by omega) h1]
  by_cases h : (insertedAt fr origin base now).Covers a
  · rw [gapAt, if_pos (show base ≤ a ∧ a < base + now from h), viewAt_pos h, some_or]
    simp only [FlatRange.resolved, insertedAt, hoff, some.injEq, Resolved.mk.injEq, true_and,
      and_true]
    omega
  · rw [gapAt, if_neg (show ¬(base ≤ a ∧ a < base + now) from h), viewAt_neg h, none_or]

/-- `view'` is `view` with the free part of `[base, base + remain)` filled. -/
structure Filled (fr : FlatRange ℤ) (origin : ℤ) (view : FlatView ℤ) (base remain : ℤ)
    (view' : FlatView ℤ) : Prop where
  ok : ViewOK view'
  kept : ∀ s ∈ view, s ∈ view'
  mem : ∀ s ∈ view', s ∈ view ∨ base ≤ s.addr.start ∧ 0 < remain
  viewAt_eq : ∀ a, viewAt view' a = (viewAt view a).or (gapAt fr origin base remain a)

section Gaps

variable {fr : FlatRange ℤ} {origin : ℤ}

theorem filled_zero (h : ViewOK view) : Filled fr origin view base 0 view :=
  ⟨h, fun _ hs => hs, fun _ hs => .inl hs, fun a => by rw [gapAt_zero, or_none]⟩

theorem filled_nil (h0 : 0 ≤ base) (hpos : 0 < remain) (hle : base + remain ≤ 2 ^ 64)
    (ho : origin ≤ base) (hsz : base - origin < 2 ^ 64) :
    Filled fr origin [] base remain [insertedAt fr origin base remain] where
  ok := viewOK_cons.2 ⟨by simp, hpos, h0, hle, viewOK_nil⟩
  kept := by simp
  mem s hs := by
    rw [mem_singleton.1 hs]
    exact .inr ⟨le_rfl, hpos⟩
  viewAt_eq a := by
    rw [viewAt_insertedAt ho hsz]
    simp [viewAt]

variable {view' : FlatView ℤ}

/-- Going over a range that ends below `base`. -/
theorem Filled.skip (hok : ViewOK (r :: view)) (hge : r.addr.start + r.addr.size ≤ base)
    (h : Filled fr origin view base remain view') :
    Filled fr origin (r :: view) base remain (r :: view') := by
  obtain ⟨hafter, hpos, hstart, hstop, -⟩ := viewOK_cons.1 hok
  refine ⟨viewOK_cons.2 ⟨fun s hs => ?_, hpos, hstart, hstop, h.ok⟩,
    cons_subset_cons r h.kept, fun s hs => ?_, fun a => ?_⟩
  · rcases h.mem s hs with hs | hs
    · exact hafter s hs
    · omega
  · rcases mem_cons.1 hs with rfl | hs
    · exact .inl mem_cons_self
    · exact (h.mem s hs).imp_left (mem_cons_of_mem r)
  · rw [viewAt, viewAt, h.viewAt_eq]
    split <;> rfl

/-- Going over a range from an address inside it. -/
theorem Filled.pass {now} (hok : ViewOK (r :: view)) (hr : 0 ≤ remain)
    (hbase : base ≤ r.addr.start + r.addr.size) (hin : remain = 0 ∨ r.addr.start ≤ base)
    (hnow : now = Min.min (base + remain) (r.addr.start + r.addr.size) - base)
    (h : Filled fr origin view (base + now) (remain - now) view') :
    Filled fr origin (r :: view) base remain (r :: view') := by
  obtain ⟨hafter, hpos, hstart, hstop, -⟩ := viewOK_cons.1 hok
  have hnow0 : 0 ≤ now := by omega
  have hnow1 : now ≤ remain := by omega
  have hend : 0 < remain - now → base + now = r.addr.start + r.addr.size := by omega
  refine ⟨viewOK_cons.2 ⟨fun s hs => ?_, hpos, hstart, hstop, h.ok⟩,
    cons_subset_cons r h.kept, fun s hs => ?_, fun a => ?_⟩
  · rcases h.mem s hs with hs | ⟨hs, hlt⟩
    · exact hafter s hs
    · rw [← hend hlt]
      exact hs
  · rcases mem_cons.1 hs with rfl | hs
    · exact .inl mem_cons_self
    · rcases h.mem s hs with hs | ⟨hs, hlt⟩
      · exact .inl (mem_cons_of_mem r hs)
      · exact .inr ⟨by omega, by omega⟩
  · by_cases hc : r.Covers a
    · rw [viewAt_pos hc, viewAt_pos hc, some_or]
    · have hnone : gapAt fr origin base now a = none := by
        refine if_neg fun ha => hc ⟨?_, ?_⟩ <;> omega
      rw [viewAt_neg hc, viewAt_neg hc, h.viewAt_eq, gapAt_split hnow0 hnow1, hnone, none_or]

/-- Putting a range before the next one of the view. -/
theorem Filled.insert {now} (hok : ViewOK (r :: view)) (h0 : 0 ≤ base) (hpos : 0 < remain)
    (ho : origin ≤ base) (hsz : base - origin < 2 ^ 64) (hlt : base < r.addr.start)
    (hnow : now = Min.min remain (r.addr.start - base))
    (h : Filled fr origin (r :: view) (base + now) (remain - now) view') :
    Filled fr origin (r :: view) base remain (insertedAt fr origin base now :: view') := by
  have hfirst : ∀ s ∈ r :: view, base + now ≤ s.addr.start := by
    obtain ⟨hafter, hrpos, -⟩ := viewOK_cons.1 hok
    intro s hs
    rcases mem_cons.1 hs with rfl | hs
    · omega
    · have := hafter s hs
      omega
  have hstop := hok.stop r mem_cons_self
  have hrpos := hok.pos r mem_cons_self
  refine ⟨viewOK_cons.2 ⟨fun s hs => ?_, ?_, h0, ?_, h.ok⟩,
    fun s hs => mem_cons_of_mem _ (h.kept s hs), fun s hs => ?_, fun a => ?_⟩
  · rcases h.mem s hs with hs | hs
    · exact hfirst s hs
    · exact hs.1
  · show 0 < now
    omega
  · show base + now ≤ 2 ^ 64
    omega
  · rcases mem_cons.1 hs with rfl | hs
    · exact .inr ⟨le_rfl, hpos⟩
    · rcases h.mem s hs with hs | hs
      · exact .inl hs
      · exact .inr ⟨by omega, hpos⟩
  · rw [viewAt_insertedAt ho hsz, h.viewAt_eq,
      gapAt_split (show 0 ≤ now by omega) (show now ≤ remain by omega)]
    by_cases ha : a < base + now
    · rw [viewAt_of_lt hfirst ha]
      simp
    · have hnone : gapAt fr origin base now a = none := if_neg (by omega)
      rw [hnone, none_or, none_or]

section Equations

variable {r : FlatRange ℤ} {view : FlatView ℤ} {base remain now : ℤ} {offset : Hwaddr}

theorem renderGaps_skip (hz : remain ≠ 0) (hge : r.addr.start + r.addr.size ≤ base) :
    renderGaps fr (r :: view) base remain offset =
      (renderGaps fr view base remain offset).bind fun view => .ok (r :: view) := by
  simp [renderGaps, hz, hge, bind]

theorem renderGaps_inside (hz : remain ≠ 0) (hge : ¬r.addr.start + r.addr.size ≤ base)
    (hlt : ¬base < r.addr.start) : renderGaps fr (r :: view) base remain offset =
      passRange (renderGaps fr view) [] r base remain offset := by
  simp [renderGaps, hz, hge, hlt]

theorem renderGaps_insert (hz : remain ≠ 0) (hlt : base < r.addr.start)
    (hnow : now = Min.min remain (r.addr.start - base)) (h0 : 0 ≤ now) (h1 : now < 2 ^ 64)
    (hpos : 0 < r.addr.size) : renderGaps fr (r :: view) base remain offset =
      passRange (renderGaps fr view) [{ fr with offsetInRegion := offset, addr := ⟨base, now⟩ }] r
        (base + now) (remain - now) (offset + BitVec.ofInt 64 now) := by
  have hge : ¬r.addr.start + r.addr.size ≤ base := by omega
  simp [renderGaps, hz, hge, hlt, ← hnow, assert64_int h0 h1, bind, Except.bind]

end Equations

/-- Filling the gaps of a view. The step over a range fits 64 bits unless the range and
the region both cover the whole space. -/
theorem renderGaps_spec : ∀ view (base remain : ℤ), ViewOK view →
    0 ≤ base → 0 ≤ remain → base + remain ≤ 2 ^ 64 → origin ≤ base →
    base + remain - origin ≤ 2 ^ 64 → ¬(remain = 2 ^ 64 ∧ ∃ r ∈ view, r.Full) →
    ∃ view', renderGaps fr view base remain (BitVec.ofInt 64 (base - origin)) = .ok view' ∧
      Filled fr origin view base remain view'
  | [], base, remain, hok, h0, hr, hle, ho, hsz, _ => by
    by_cases hz : remain = 0
    · subst hz
      exact ⟨[], by simp [renderGaps], filled_zero hok⟩
    · exact ⟨[insertedAt fr origin base remain], by simp [renderGaps, hz, insertedAt],
        filled_nil h0 (by omega) hle ho (by omega)⟩
  | r :: view, base, remain, hok, h0, hr, hle, ho, hsz, hfull => by
    obtain ⟨hafter, hpos, hstart, hstop, hview⟩ := viewOK_cons.1 hok
    have hrest : ¬∃ s ∈ view, s.Full := by
      rintro ⟨s, hs, hf⟩
      have := hafter s hs
      have := hf.1
      omega
    by_cases hz : remain = 0
    · subst hz
      exact ⟨r :: view, by simp [renderGaps], filled_zero hok⟩
    by_cases hge : r.addr.start + r.addr.size ≤ base
    · obtain ⟨view', hrun, hfill⟩ := renderGaps_spec view base remain hview h0 hr hle ho hsz
        fun h => hrest h.2
      exact ⟨r :: view', by rw [renderGaps_skip hz hge, hrun]; rfl, hfill.skip hok hge⟩
    have hoff : ∀ base now, BitVec.ofInt 64 (base - origin) + BitVec.ofInt 64 now =
        BitVec.ofInt 64 (base + now - origin) := fun _ _ => by
      rw [← BitVec.ofInt_add, sub_add_eq_add_sub]
    have hpass : ∀ (inserted : FlatView ℤ) (base remain : ℤ), 0 ≤ base → 0 ≤ remain →
        base + remain ≤ 2 ^ 64 → origin ≤ base → base + remain - origin ≤ 2 ^ 64 →
        base ≤ r.addr.start + r.addr.size → remain = 0 ∨ r.addr.start ≤ base →
        ¬(remain = 2 ^ 64 ∧ r.Full) →
        ∃ view', passRange (renderGaps fr view) inserted r base remain
            (BitVec.ofInt 64 (base - origin)) = .ok (inserted ++ r :: view') ∧
          Filled fr origin (r :: view) base remain (r :: view') := by
      intro inserted base remain h0 hr hle ho hsz hend hin hfull
      obtain ⟨now, hnow⟩ := @exists_eq _ (Min.min (base + remain) (r.addr.start + r.addr.size) -
        base)
      have hnow64 : now < 2 ^ 64 := by
        by_contra hcon
        exact hfull ⟨by omega, by omega, by omega⟩
      obtain ⟨view', hrun, hfill⟩ :=
        renderGaps_spec view (base + now) (remain - now) hview (by omega)
        (by omega) (by omega) (by omega) (by omega) fun h => hrest h.2
      refine ⟨view', ?_, hfill.pass hok hr hend hin hnow⟩
      simp only [passRange, addrrangeEnd, int_add, int_sub, int_min, ← hnow,
        assert64_int (show 0 ≤ now by omega) hnow64, bind, Except.bind, hoff, hrun]
    by_cases hlt : base < r.addr.start
    · obtain ⟨now, hnow⟩ := @exists_eq _ (Min.min remain (r.addr.start - base))
      obtain ⟨view', hrun, hfill⟩ := hpass [insertedAt fr origin base now] (base + now)
        (remain - now) (by omega) (by omega) (by omega) (by omega) (by omega) (by omega) (by omega)
        (by omega)
      refine ⟨insertedAt fr origin base now :: r :: view', ?_,
        hfill.insert hok h0 (by omega) ho (by omega) hlt hnow⟩
      rw [renderGaps_insert hz hlt hnow (by omega) (by omega) hpos, hoff]
      exact hrun
    · obtain ⟨view', hrun, hfill⟩ := hpass [] base remain h0 hr hle ho hsz (by omega) (by omega)
        fun h => hfull ⟨h.1, r, mem_cons_self, h.2⟩
      refine ⟨r :: view', ?_, hfill⟩
      rw [renderGaps_inside hz hge hlt]
      exact hrun

/-- The one failure : a region that covers the whole space, under another one. -/
theorem renderGaps_full (hf : r.Full) (offset : Hwaddr) :
    renderGaps fr [r] 0 (2 ^ 64) offset = .error .assertFailed := by
  obtain ⟨h0, h1⟩ := hf
  rw [renderGaps_inside (by decide) (by rw [h0, h1]; decide) (by rw [h0]; decide), passRange]
  simp only [int_add, int_sub, int_min, addrrangeEnd, h0, h1]
  rfl

end Gaps

/-- A view with a range that covers the whole space has no other. -/
theorem ViewOK.eq_singleton (hok : ViewOK view) (hr : r ∈ view) (hf : r.Full) : view = [r] := by
  obtain ⟨h0, h1⟩ := hf
  cases view with
  | nil => simp at hr
  | cons s view =>
    obtain ⟨hafter, hpos, hstart, hstop, hview⟩ := viewOK_cons.1 hok
    rcases mem_cons.1 hr with rfl | hmem
    · cases view with
      | nil => rfl
      | cons t view =>
        have := hafter t mem_cons_self
        have := hok.stop t (by simp)
        have := hok.pos t (by simp)
        omega
    · have := hafter r hmem
      omega

/-! ## Merging -/

/-- `cur` has grown to the end of `last`, with its offsets in step. -/
structure Grown (cur last : FlatRange ℤ) : Prop where
  stop : cur.addr.start + cur.addr.size = last.addr.start + last.addr.size
  mr : cur.mr = last.mr
  offset : (cur.offsetInRegion.toNat : ℤ) - cur.addr.start =
    last.offsetInRegion.toNat - last.addr.start
  romdMode : cur.romdMode = last.romdMode
  readonly : cur.readonly = last.readonly

theorem grown_self (r : FlatRange ℤ) : Grown r r := ⟨rfl, rfl, rfl, rfl, rfl⟩

theorem canMerge_int {r1 r2 : FlatRange ℤ} : canMerge r1 r2 ↔
    r1.addr.start + r1.addr.size = r2.addr.start ∧ r1.mr = r2.mr ∧
      r1.offsetInRegion.toNat + r1.addr.size = r2.offsetInRegion.toNat ∧
      r1.dirtyLogMask = r2.dirtyLogMask ∧ r1.romdMode = r2.romdMode ∧
      r1.readonly = r2.readonly := by
  simp [canMerge, and_assoc]

/-- One step of the inner loop of `flatview_simplify`. -/
theorem Grown.merge {cur last : FlatRange ℤ} (h : Grown cur last) (hm : canMerge last r) :
    Grown { cur with addr := ⟨cur.addr.start, cur.addr.size + r.addr.size⟩ } r := by
  obtain ⟨h1, h2, h3, h4, h5⟩ := h
  obtain ⟨m1, m2, m3, -, m5, m6⟩ := canMerge_int.1 hm
  refine ⟨?_, h2.trans m2, ?_, h4.trans m5, h5.trans m6⟩ <;> dsimp only <;> omega

/-- Two ranges that can be merged say what the merged one says. -/
theorem viewAt_merge {cur last} (h : Grown cur last) (hm : canMerge last r)
    (hcur : 0 < cur.addr.size) (hr : 0 < r.addr.size) (view : FlatView ℤ) (a : ℤ) :
    viewAt ({ cur with addr := ⟨cur.addr.start, cur.addr.size + r.addr.size⟩ } :: view) a =
      viewAt (cur :: r :: view) a := by
  obtain ⟨g1, g2, g3, g4, g5⟩ := h.merge hm
  dsimp only at g1 g2 g3 g4 g5
  by_cases hc : cur.Covers a
  · rw [viewAt_pos hc, viewAt_pos]
    · rfl
    · exact ⟨hc.1, hc.2.trans (by dsimp only; omega)⟩
  rw [viewAt_neg hc]
  by_cases hc' : r.Covers a
  · rw [viewAt_pos hc', viewAt_pos]
    · simp only [FlatRange.resolved, g2, g4, g5, some.injEq, Resolved.mk.injEq, true_and,
        and_true]
      omega
    · unfold FlatRange.Covers at *
      dsimp only
      omega
  · rw [viewAt_neg hc', viewAt_neg]
    unfold FlatRange.Covers at *
    dsimp only
    omega

theorem start_of_mem_simplifyFrom : ∀ (view : FlatView ℤ) (cur last s : FlatRange ℤ),
    s ∈ simplifyFrom cur last view → s.addr.start = cur.addr.start ∨
      ∃ t ∈ view, s.addr.start = t.addr.start
  | [], cur, last, s, hs => by
    rw [simplifyFrom, mem_singleton] at hs
    exact .inl (by rw [hs])
  | r :: view, cur, last, s, hs => by
    rw [simplifyFrom] at hs
    split at hs
    · rcases start_of_mem_simplifyFrom view _ r s hs with h | ⟨t, ht, h⟩
      · exact .inl h
      · exact .inr ⟨t, mem_cons_of_mem r ht, h⟩
    · rcases mem_cons.1 hs with rfl | hs
      · exact .inl rfl
      · rcases start_of_mem_simplifyFrom view r r s hs with h | ⟨t, ht, h⟩
        · exact .inr ⟨r, mem_cons_self, h⟩
        · exact .inr ⟨t, mem_cons_of_mem r ht, h⟩

theorem simplifyFrom_spec : ∀ (view : FlatView ℤ) (cur last : FlatRange ℤ), ViewOK (cur :: view) →
    Grown cur last → ViewOK (simplifyFrom cur last view) ∧
      ∀ a, viewAt (simplifyFrom cur last view) a = viewAt (cur :: view) a
  | [], _, _, hok, _ => ⟨hok, fun _ => rfl⟩
  | r :: view, cur, last, hok, hg => by
    obtain ⟨hafter, hpos, hstart, hstop, hview⟩ := viewOK_cons.1 hok
    obtain ⟨hafter', hpos', -, hstop', hview'⟩ := viewOK_cons.1 hview
    rw [simplifyFrom]
    by_cases hm : canMerge last r
    · have hg' := hg.merge hm
      have hend := hg'.stop
      rw [if_pos hm]
      obtain ⟨ih, ih'⟩ := simplifyFrom_spec view
        { cur with addr := ⟨cur.addr.start, cur.addr.size + r.addr.size⟩ } r
        (viewOK_cons.2 ⟨fun s hs => hend.trans_le (hafter' s hs), by dsimp only; omega, hstart,
          hend.trans_le hstop', hview'⟩) hg'
      exact ⟨ih, fun a => (ih' a).trans (viewAt_merge hg hm hpos hpos' view a)⟩
    · rw [if_neg hm]
      obtain ⟨ih, ih'⟩ := simplifyFrom_spec view r r hview (grown_self r)
      refine ⟨viewOK_cons.2 ⟨fun s hs => ?_, hpos, hstart, hstop, ih⟩, fun a => ?_⟩
      · rcases start_of_mem_simplifyFrom view r r s hs with h | ⟨t, ht, h⟩
        · rw [h]
          exact hafter r mem_cons_self
        · rw [h]
          exact hafter t (mem_cons_of_mem r ht)
      · rw [viewAt, ih', viewAt.eq_2 _ cur]

theorem flatviewSimplify_spec (hok : ViewOK view) :
    ViewOK (flatviewSimplify view) ∧ ∀ a, viewAt (flatviewSimplify view) a = viewAt view a := by
  cases view with
  | nil => exact ⟨hok, fun _ => rfl⟩
  | cons r view => exact simplifyFrom_spec view r r hok (grown_self r)

end QemuArm
