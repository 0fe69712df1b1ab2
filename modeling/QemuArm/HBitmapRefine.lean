import QemuArm.HBitmapCount

/-!
# A hierarchical bitmap is a set of groups

`HBitmap.WF` is the invariant of `util/hbitmap.c`. `hbitmap_alloc` establishes it with
no bit set and `hbitmap_set` and `hbitmap_reset` keep it, adding and removing the groups
of their range (`hbitmapSet_spec`, `hbitmapReset_spec`), so after any run the set bits are
the groups that some set touched after the last reset (`hbRun_spec`).

`HBitmapRefines size granularity` is the whole contract for the bitmaps of one size. It
fails for sizes over `2 ^ 63` : the rounding of `hbitmap_alloc` wraps, or
`hbitmap_iter_next` returns a group at or past `2 ^ 63` as a negative number. It holds for
all others (`hbitmapRefines_iff`).
-/

open Word

namespace QemuArm

open Option Function Finset List Nat

open HBitmap

/-! ## The invariant -/

/-- Number of words of the level `h` levels above the last one. -/
def levelWords (size : ℕ) : ℕ → ℕ
  | 0 => max ((size + 63) / 64) 1
  | h + 1 => max ((levelWords size h + 63) / 64) 1

/-- The invariant of a bitmap between calls. -/
structure HBitmap.WF (hb : HBitmap) : Prop where
  size_le : hb.size ≤ 2 ^ 41
  length : ∀ l ≤ 6, (hb.levels l).length = levelWords hb.size (6 - l)
  linked : hb.Linked 6
  sentinel : hb.bit 0 63 = true
  inside : ∀ j, hb.bit 6 j = true → j < hb.size
  count : hb.count = hb.countIn 0 hb.size

/-- `hb'` has the bits from `s` to `l` equal to `v`, and the others of `hb`. -/
structure HBitmap.Wrote (hb : HBitmap) (v : Bool) (s l : ℕ) (hb' : HBitmap) : Prop where
  wf : hb'.WF
  size : hb'.size = hb.size
  granularity : hb'.granularity = hb.granularity
  bits : ∀ j, hb'.bit 6 j = if s ≤ j ∧ j ≤ l then v else hb.bit 6 j

variable {size : ℕ}

theorem div_lt_levelWords {p} (hp : p < size) : ∀ h, p / 64 ^ (h + 1) < levelWords size h
  | 0 => by
    rw [levelWords, pow_one]
    omega
  | h + 1 => by
    have ih := div_lt_levelWords hp h
    rw [levelWords, pow_succ, ← Nat.div_div_eq_div_mul]
    omega

theorem levelWords_six (h : size ≤ 2 ^ 41) : levelWords size 6 = 1 := by
  have h0 : levelWords size 0 ≤ 2 ^ 35 := by rw [levelWords]; omega
  have h1 : levelWords size 1 ≤ 2 ^ 29 := by rw [levelWords]; omega
  have h2 : levelWords size 2 ≤ 2 ^ 23 := by rw [levelWords]; omega
  have h3 : levelWords size 3 ≤ 2 ^ 17 := by rw [levelWords]; omega
  have h4 : levelWords size 4 ≤ 2 ^ 11 := by rw [levelWords]; omega
  have h5 : levelWords size 5 ≤ 2 ^ 5 := by rw [levelWords]; omega
  rw [levelWords]
  omega

theorem pathAt_zero_lt {p} (hp : p < 2 ^ 41) : pathAt p 0 < 63 := by
  rw [pathAt]
  omega

namespace HBitmap

variable {hb : HBitmap}

theorem WF.covers (h : hb.WF) {p} (hp : p < hb.size) : hb.Covers p := by
  intro l hl
  have := div_lt_levelWords hp (6 - l)
  rw [h.length l hl, pathAt, Nat.div_div_eq_div_mul]
  exact this

theorem WF.stacked (h : hb.WF) : hb.Stacked := by
  intro l hl
  rw [h.length _ (by omega), h.length _ (by omega), show 6 - l = 6 - (l + 1) + 1 by omega,
    levelWords]
  omega

theorem WF.iterable (h : hb.WF) : hb.Iterable where
  linked := h.linked
  sentinel := h.sentinel
  top j hj := by
    have hlt := bitAt_lt hj
    rw [h.length 0 (by decide), levelWords_six h.size_le] at hlt
    omega
  inside j hj := pathAt_zero_lt ((h.inside j hj).trans_le h.size_le)

/-- What changes in one operation is the last level and the count. -/
theorem WF.of_sameShape (h : hb.WF) {hb' c}
    (hs : SameShape { hb with count := c } hb' 6) (hlink : hb'.Linked 6)
    (hsent : hb'.bit 0 63 = hb.bit 0 63) (hin : ∀ j, hb'.bit 6 j = true → j < hb.size)
    (hc : c = hb'.countIn 0 hb.size) : hb'.WF where
  size_le := hs.size ▸ h.size_le
  length l hl := by
    rw [hs.length l, hs.size]
    exact h.length l hl
  linked := hlink
  sentinel := hsent.trans h.sentinel
  inside j hj := hs.size ▸ hin j hj
  count := by
    rw [hs.count, hs.size]
    exact hc

theorem countIn_le (hb : HBitmap) (a b : ℕ) : hb.countIn a b ≤ b - a := by
  have := card_filter_le (Finset.Ico a b) (hb.bit 6 ·)
  rwa [card_Ico] at this

theorem countIn_congr (hb hb' : HBitmap) (a b : ℕ)
    (h : ∀ k, a ≤ k → k < b → hb'.bit 6 k = hb.bit 6 k) : hb'.countIn a b = hb.countIn a b := by
  unfold countIn
  congr 1
  refine filter_congr fun k hk => ?_
  rw [h k (mem_Ico.1 hk).1 (mem_Ico.1 hk).2]

theorem countIn_full {a b} (h : ∀ k, a ≤ k → k < b → hb.bit 6 k = true) :
    hb.countIn a b = b - a := by
  rw [countIn, filter_true_of_mem, card_Ico]
  intro k hk
  exact h k (mem_Ico.1 hk).1 (mem_Ico.1 hk).2

theorem countIn_split (hb : HBitmap) {a b n} (hab : a ≤ b) (hbn : b ≤ n) :
    hb.countIn 0 n = hb.countIn 0 a + hb.countIn a b + hb.countIn b n := by
  rw [hb.countIn_add (zero_le a) hab, hb.countIn_add (zero_le b) hbn]

/-- Between two bits that bound all changes the count is what it is there, plus what is outside. -/
theorem WF.count_split (h : hb.WF) {hb' : HBitmap} {s l : ℕ} (hsl : s ≤ l) (hl : l < hb.size)
    (hout : ∀ k, k < s ∨ l < k → hb'.bit 6 k = hb.bit 6 k) : ∃ x ≤ s, ∃ z ≤ 2 ^ 41,
      hb.count = x + hb.countIn s (l + 1) + z ∧
      hb'.countIn 0 hb.size = x + hb'.countIn s (l + 1) + z := by
  have hbefore := countIn_congr hb hb' 0 s fun k _ hk => hout k (.inl hk)
  have hafter := countIn_congr hb hb' (l + 1) hb.size fun k hk _ => hout k (.inr hk)
  have hle := hb.countIn_le (l + 1) hb.size
  have hsize := h.size_le
  refine ⟨_, hb.countIn_le 0 s, hb.countIn (l + 1) hb.size, by omega, ?_, ?_⟩
  · rw [h.count, hb.countIn_split (by omega : s ≤ l + 1) hl]
  · rw [hb'.countIn_split (by omega : s ≤ l + 1) hl, hbefore, hafter]

end HBitmap

/-! ## The operations -/

variable {hb : HBitmap}

variable {s l start count : ℕ}

theorem hbCountBetween_of_wf (h : hb.WF) (hsl : s ≤ l) (hl : l < hb.size) :
    hbCountBetween hb s l = some (hb.countIn s (l + 1)) := by
  have hsize := h.size_le
  exact hbCountBetween_spec h.iterable hsl (by omega) (by omega) (h.covers (by omega))
    (pathAt_zero_lt (by omega))

theorem last_eq (h1 : 1 ≤ count) (h2 : start + count ≤ 2 ^ 64) :
    (start + count + (2 ^ 64 - 1)) % 2 ^ 64 = start + count - 1 := by
  rw [show start + count + (2 ^ 64 - 1) = start + count - 1 + 2 ^ 64 by omega, add_mod_right,
    mod_eq_of_lt (by omega)]

/-- The preconditions of `hb_set_between` and `hb_reset_between` on the last level. -/
theorem between_pre (h : hb.WF) (hl : l < hb.size) :
    l / 64 < (hb.levels 6).length ∧ l / 64 ^ 6 < 63 := by
  have hcov := h.covers hl 6 le_rfl
  rw [pathAt_six] at hcov
  exact ⟨hcov, pathAt_zero_lt (hl.trans_le h.size_le)⟩

/-- The number of bits in a range that are all `v`. -/
theorem countIn_const {v : Bool} {a b : ℕ} (h : ∀ k, a ≤ k → k < b → hb.bit 6 k = v) :
    hb.countIn a b = if v then b - a else 0 := by
  cases v
  · exact countIn_eq_zero h
  · exact countIn_full h

/-- An operation on the groups from `s` to `l` keeps the invariant if `c` counts the bits. -/
theorem StepsUp.wf {v between} (hsteps : StepsUp v between) (h : hb.WF) (hsl : s ≤ l)
    (hl : l < hb.size) {c : ℕ} (hc : ∀ x ≤ s, ∀ z ≤ 2 ^ 41,
      hb.count = x + hb.countIn s (l + 1) + z → c = x + (if v then l + 1 - s else 0) + z) :
    ∃ hb', between 6 { hb with count := c } s l = some hb' ∧ hb.Wrote v s l hb' := by
  obtain ⟨hlen, htop⟩ := between_pre h hl
  obtain ⟨hb', hrun, hshape, hbits, hlink, hsent⟩ := hsteps.spec 6 { hb with count := c } s l
    le_rfl h.stacked h.linked hsl hlen htop
  refine ⟨hb', hrun, h.of_sameShape hshape hlink hsent (fun j hj => ?_) ?_, hshape.size,
    hshape.granularity, hbits⟩
  · rw [hbits] at hj
    split_ifs at hj
    · omega
    · exact h.inside j hj
  · obtain ⟨x, hx, z, hz, hold, hnew⟩ := h.count_split hsl hl fun k hk =>
      (hbits k).trans (if_neg (by omega))
    rw [hnew, countIn_const fun k hk hk' => (hbits k).trans (if_pos (by omega)), hc x hx z hz hold]

section

variable (h : hb.WF) (h1 : 1 ≤ count) (h2 : start + count ≤ 2 ^ 64)
  (hin : (start + count - 1) / 2 ^ hb.granularity < hb.size)
include h h1 h2 hin

/-- `hbitmap_set` sets the bits of the groups of its range. -/
theorem hbitmapSet_spec :
    ∃ hb', hbitmapSet hb start count = some hb' ∧ hb.Wrote true (start / 2 ^ hb.granularity)
      ((start + count - 1) / 2 ^ hb.granularity) hb' := by
  have hsl : start / 2 ^ hb.granularity ≤ (start + count - 1) / 2 ^ hb.granularity :=
    Nat.div_le_div_right (by omega)
  have hsize := h.size_le
  rw [hbitmapSet]
  simp only [last_eq h1 h2, hbCountBetween_of_wf h hsl hin, bind_eq_bind, bind_some]
  refine stepsUp_hbSetBetween.wf h hsl hin fun x hx z hz hold => ?_
  have hle := hb.countIn_le (start / 2 ^ hb.granularity)
    ((start + count - 1) / 2 ^ hb.granularity + 1)
  rw [hold, if_pos rfl]
  omega

/-- `hbitmap_reset` clears the bits of the groups of its range. -/
theorem hbitmapReset_spec :
    ∃ hb', hbitmapReset hb start count = some hb' ∧ hb.Wrote false (start / 2 ^ hb.granularity)
      ((start + count - 1) / 2 ^ hb.granularity) hb' := by
  have hsl : start / 2 ^ hb.granularity ≤ (start + count - 1) / 2 ^ hb.granularity :=
    Nat.div_le_div_right (by omega)
  have hsize := h.size_le
  rw [hbitmapReset]
  simp only [last_eq h1 h2, hbCountBetween_of_wf h hsl hin, bind_eq_bind, bind_some]
  refine stepsUp_hbResetBetween.wf h hsl hin fun x hx z hz hold => ?_
  have hle := hb.countIn_le (start / 2 ^ hb.granularity)
    ((start + count - 1) / 2 ^ hb.granularity + 1)
  rw [hold, if_neg Bool.false_ne_true]
  omega

/-! ## Allocating -/

end

/-- Number of bits of the level `h` levels above the last one. -/
def levelBits (size : ℕ) : ℕ → ℕ
  | 0 => size
  | h + 1 => levelWords size h

theorem levelWords_eq (size : ℕ) : ∀ h, levelWords size h = max ((levelBits size h + 63) / 64) 1
  | 0 => rfl
  | _ + 1 => rfl

/-- The allocation loop zeroes every level and ends with the size of level 0. -/
theorem allocLevels_spec (size : ℕ) : ∀ (n : ℕ) levels, n ≤ 7 →
    (allocLevels n (levelBits size (7 - n)) levels).2 = levelWords size 6 ∧
    (∀ l, n ≤ l → (allocLevels n (levelBits size (7 - n)) levels).1 l = levels l) ∧
    ∀ l < n, (allocLevels n (levelBits size (7 - n)) levels).1 l =
      replicate (levelWords size (6 - l)) 0#64
  | 0, levels, _ => ⟨rfl, fun _ _ => rfl, fun l hl => absurd hl (not_lt_zero l)⟩
  | n + 1, levels, hn => by
    have hsz : max ((levelBits size (7 - (n + 1)) + 63) / 64) 1 = levelBits size (7 - n) := by
      rw [← levelWords_eq, show 7 - n = 7 - (n + 1) + 1 by omega]
      rfl
    have hw : levelBits size (7 - n) = levelWords size (6 - n) := by
      rw [show 7 - n = 6 - n + 1 by omega]
      rfl
    have hstep : allocLevels (n + 1) (levelBits size (7 - (n + 1))) levels =
        allocLevels n (levelBits size (7 - n))
          (update levels n (replicate (levelWords size (6 - n)) 0#64)) := by
      rw [allocLevels, hsz, hw]
    obtain ⟨h1, h2, h3⟩ := allocLevels_spec size n
      (update levels n (replicate (levelWords size (6 - n)) 0#64)) (by omega)
    rw [hstep]
    refine ⟨h1, fun l hl => ?_, fun l hl => ?_⟩
    · rw [h2 l (by omega), update_of_ne (by omega)]
    · rcases Nat.lt_succ_iff_lt_or_eq.1 hl with hl | rfl
      · exact h3 l hl
      · rw [h2 l le_rfl, update_self]

theorem bitAt_replicate_zero (n j : ℕ) : bitAt (replicate n 0#64) j = false := by
  have : (replicate n 0#64).getD (j / 64) 0#64 = 0#64 := by
    rw [getD_eq_getElem?_getD, getElem?_replicate]
    split <;> rfl
  rw [bitAt, this]
  exact BitVec.getLsbD_zero

/-- Zeroed levels with the sentinel are well formed. -/
theorem HBitmap.WF.of_zero (hsize : hb.size ≤ 2 ^ 41) (hcount : hb.count = 0)
    (h0 : hb.levels 0 = [1#64 <<< 63])
    (hlev : ∀ l, 1 ≤ l → l ≤ 6 → hb.levels l = replicate (levelWords hb.size (6 - l)) 0#64) :
    hb.WF ∧ ∀ j, hb.bit 6 j = false := by
  have hbit : ∀ l, 1 ≤ l → l ≤ 6 → ∀ j, hb.bit l j = false := by
    intro l h1 h6 j
    rw [HBitmap.bit, hlev l h1 h6, bitAt_replicate_zero]
  have hbit0 : ∀ n, hb.bit 0 n = true → n = 63 := by
    intro n hn
    have hlt := bitAt_lt hn
    rw [h0, length_singleton] at hlt
    rw [HBitmap.bit, h0, bitAt, show n / 64 = 0 by omega, getD_cons_zero,
      getLsbD_one_shiftLeft (by decide), decide_eq_true_eq] at hn
    omega
  refine ⟨⟨hsize, fun l hl => ?_, fun l hl n hn => ?_, ?_, fun j hj => ?_, ?_⟩,
    hbit 6 (by decide) le_rfl⟩
  · rcases Nat.eq_zero_or_pos l with rfl | hpos
    · rw [h0, levelWords_six hsize, length_singleton]
    · rw [hlev l hpos hl, length_replicate]
  · refine iff_of_false (fun hb => ?_) fun hz => ?_
    · rcases Nat.eq_zero_or_pos l with rfl | hpos
      · exact hn ⟨rfl, hbit0 n hb⟩
      · rw [hbit l hpos hl.le] at hb
        cases hb
    · obtain ⟨j, -, hj⟩ := nonzeroWord_iff.1 hz
      rw [hbit (l + 1) (by omega) (by omega)] at hj
      cases hj
  · rw [HBitmap.bit, h0]
    decide
  · rw [hbit 6 (by decide) le_rfl] at hj
    cases hj
  · rw [hcount, HBitmap.countIn_eq_zero fun k _ _ => hbit 6 (by decide) le_rfl k]

variable {granularity : ℕ}

/-- `hbitmap_alloc` checks the granularity and the number of groups, and gives a bitmap
with no bit set. -/
theorem hbitmapAlloc_spec (h : hbitmapAlloc size granularity = some hb) :
    granularity < 64 ∧ hb.size = groupsOf size granularity ∧ hb.granularity = granularity ∧
      hb.WF ∧ ∀ j, hb.bit 6 j = false := by
  obtain ⟨hg, h⟩ := ite_none_right_eq_some.1 h
  obtain ⟨hle, h⟩ := ite_none_right_eq_some.1 h
  obtain ⟨-, -, hlev⟩ := allocLevels_spec (groupsOf size granularity) 7 (fun _ => []) le_rfl
  change ∀ l < 7,
    (allocLevels hbitmapLevels (groupsOf size granularity) fun _ => []).1 l = _ at hlev
  generalize allocLevels hbitmapLevels (groupsOf size granularity) (fun _ => []) = r at h hlev
  obtain ⟨-, h⟩ := ite_none_right_eq_some.1 h
  have hle' : groupsOf size granularity ≤ 2 ^ 41 := hle
  have h0 := hlev 0 (by decide)
  rw [levelWords_six hle'] at h0
  rw [h0] at h
  cases h
  refine ⟨hg, rfl, rfl, HBitmap.WF.of_zero hle' rfl rfl fun l h1 h6 => ?_⟩
  show update r.1 0 _ l = _
  rw [update_of_ne (by omega)]
  exact hlev l (by omega)

/-! ## Runs -/

/-- A call of `hbitmap_set` or `hbitmap_reset` with its range. -/
inductive HBOp where
  | set (start count : ℕ)
  | reset (start count : ℕ)

/-- The call's range is not empty and inside a bitmap of `size` elements. -/
def HBOp.Inside (size : ℕ) : HBOp → Prop
  | .set start count | .reset start count => 1 ≤ count ∧ start + count ≤ size

/-- The call's range has an element of the group. -/
def HBOp.Touches (granularity group : ℕ) : HBOp → Prop
  | .set start count | .reset start count =>
    start / 2 ^ granularity ≤ group ∧ group ≤ (start + count - 1) / 2 ^ granularity

def hbStep (hb : HBitmap) : HBOp → Option HBitmap
  | .set start count => hbitmapSet hb start count
  | .reset start count => hbitmapReset hb start count

def hbRun (hb : HBitmap) : List HBOp → Option HBitmap
  | [] => some hb
  | op :: ops => do hbRun (← hbStep hb op) ops

/-- No reset of `ops` touches the group. -/
def NoReset (granularity group : ℕ) (ops : List HBOp) : Prop :=
  ∀ start count, HBOp.reset start count ∈ ops → ¬(HBOp.reset start count).Touches granularity group

/-- A set touched the group and no later reset did. -/
def TouchedSinceReset (granularity : ℕ) (ops : List HBOp) (group : ℕ) : Prop :=
  ∃ pre start count post, ops = pre ++ .set start count :: post ∧
    (HBOp.set start count).Touches granularity group ∧ NoReset granularity group post

theorem touchedSinceReset_cons {group op ops} :
    TouchedSinceReset granularity (op :: ops) group ↔
      ((∃ start count, op = .set start count) ∧ op.Touches granularity group ∧
        NoReset granularity group ops) ∨ TouchedSinceReset granularity ops group := by
  constructor
  · rintro ⟨pre, start, count, post, heq, ht, hn⟩
    cases pre with
    | nil =>
      obtain ⟨rfl, rfl⟩ := cons.inj heq
      exact .inl ⟨⟨start, count, rfl⟩, ht, hn⟩
    | cons o pre =>
      obtain ⟨rfl, rfl⟩ := cons.inj heq
      exact .inr ⟨pre, start, count, post, rfl, ht, hn⟩
  · rintro (⟨⟨start, count, rfl⟩, ht, hn⟩ | ⟨pre, start, count, post, rfl, ht, hn⟩)
    · exact ⟨[], start, count, ops, rfl, ht, hn⟩
    · exact ⟨op :: pre, start, count, post, rfl, ht, hn⟩

/-- One call keeps the invariant and adds or removes the groups it touches. -/
theorem hbStep_spec (h : hb.WF) (hsize : size ≤ 2 ^ 64)
    (hfit : ∀ i < size, i / 2 ^ hb.granularity < hb.size) {op} (hop : op.Inside size) :
    ∃ hb', hbStep hb op = some hb' ∧ hb'.WF ∧ hb'.size = hb.size ∧
      hb'.granularity = hb.granularity ∧ ∀ j, hb'.bit 6 j = true ↔
        ((∃ start count, op = .set start count) ∧ op.Touches hb.granularity j) ∨
          hb.bit 6 j = true ∧ NoReset hb.granularity j [op] := by
  cases op with
  | set start count =>
    obtain ⟨hb', hrun, hwf, hs, hg, hbits⟩ := hbitmapSet_spec h hop.1 (hop.2.trans hsize)
      (hfit _ (by have := hop.1; have := hop.2; omega))
    refine ⟨hb', hrun, hwf, hs, hg, fun j => ?_⟩
    rw [hbits]
    split_ifs with ht <;> simp [NoReset, HBOp.Touches, ht]
  | reset start count =>
    obtain ⟨hb', hrun, hwf, hs, hg, hbits⟩ := hbitmapReset_spec h hop.1 (hop.2.trans hsize)
      (hfit _ (by have := hop.1; have := hop.2; omega))
    refine ⟨hb', hrun, hwf, hs, hg, fun j => ?_⟩
    rw [hbits]
    split_ifs with ht <;> simp_all [NoReset, HBOp.Touches]

/-- After a run the set bits are the groups touched by a set since their last reset, and
the bits set before that no reset touched. -/
theorem hbRun_spec (hsize : size ≤ 2 ^ 64) : ∀ (ops : List HBOp) {hb : HBitmap},
    hb.WF → (∀ i < size, i / 2 ^ hb.granularity < hb.size) → (∀ op ∈ ops, op.Inside size) →
    ∃ hb', hbRun hb ops = some hb' ∧ hb'.WF ∧ hb'.size = hb.size ∧
      hb'.granularity = hb.granularity ∧ ∀ j, hb'.bit 6 j = true ↔
        TouchedSinceReset hb.granularity ops j ∨ hb.bit 6 j = true ∧ NoReset hb.granularity j ops
  | [], hb, h, _, _ =>
    ⟨hb, rfl, h, rfl, rfl, fun j => by simp [TouchedSinceReset, NoReset]⟩
  | op :: ops, hb, h, hfit, hops => by
    obtain ⟨hb₁, hstep, hwf₁, hs₁, hg₁, hbits₁⟩ := hbStep_spec h hsize hfit (hops op (by simp))
    obtain ⟨hb', hrun, hwf, hs, hg, hbits⟩ := hbRun_spec hsize ops hwf₁ (by rwa [hs₁, hg₁])
      fun o ho => hops o (by simp [ho])
    refine ⟨hb', by rw [hbRun, hstep]; exact hrun, hwf, hs.trans hs₁, hg.trans hg₁, fun j => ?_⟩
    have hsplit : NoReset hb.granularity j (op :: ops) ↔
        NoReset hb.granularity j [op] ∧ NoReset hb.granularity j ops := by
      simp only [NoReset, List.mem_cons, List.not_mem_nil, or_false]
      exact ⟨fun hn => ⟨fun s c hm => hn s c (.inl hm), fun s c hm => hn s c (.inr hm)⟩,
        fun hn s c hm => hm.elim (hn.1 s c) (hn.2 s c)⟩
    rw [hbits, hbits₁, hg₁, touchedSinceReset_cons]
    generalize (∃ start count, op = HBOp.set start count) = isSet
    tauto

/-! ## The contract -/

/-- The results of the next `n` calls of `hbitmap_iter_next`. -/
def iterTrace (hb : HBitmap) : ℕ → HBitmapIter → Option (List ℤ)
  | 0, _ => some []
  | n + 1, hbi => do
    let (hbi, item) ← hbitmapIterNext hb hbi
    let items ← iterTrace hb n hbi
    some (item :: items)

/-- What a bitmap of `size` elements shows after the calls `ops`. -/
structure HBContract (size granularity : ℕ) (ops : List HBOp) (hb : HBitmap) : Prop where
  linked : ∀ l < hbitmapLevels - 1, ∀ n, ¬(l = 0 ∧ n = 63) →
    (hb.bit l n = true ↔ hb.NonzeroWord (l + 1) n)
  sentinel : hb.bit 0 63 = true
  count : hb.count = Set.ncard {j | hb.bit (hbitmapLevels - 1) j = true}
  get : ∀ i < size, ∃ b, hbitmapGet hb i = some b ∧
    (b = true ↔ TouchedSinceReset granularity ops (i / 2 ^ granularity))
  iter : ∀ first < size, ∃ hbi, ∃ groups : List ℕ,
    hbitmapIterInit hb first = some hbi ∧ groups.Pairwise (· < ·) ∧
    (∀ j, j ∈ groups ↔ first / 2 ^ granularity ≤ j ∧ TouchedSinceReset granularity ops j) ∧
    ∀ n, iterTrace hb n hbi =
      some ((groups.map (fun j => ((j * 2 ^ granularity : ℕ) : ℤ)) ++ replicate n (-1)).take n)

/-- Every bitmap of this size and granularity refines a set of groups : no call inside it
fails, and the contract holds after every run. -/
def HBitmapRefines (size granularity : ℕ) : Prop :=
  ∀ hb, hbitmapAlloc size granularity = some hb → ∀ ops : List HBOp,
    (∀ op ∈ ops, op.Inside size) → ∃ hb', hbRun hb ops = some hb' ∧
      HBContract size granularity ops hb'

theorem hbitmapGet_spec (h : hb.WF) {i} (hi : i / 2 ^ hb.granularity < hb.size) :
    hbitmapGet hb i = some (hb.bit 6 (i / 2 ^ hb.granularity)) := by
  have hcov := h.covers hi 6 le_rfl
  rw [pathAt_six] at hcov
  set p := i / 2 ^ hb.granularity with hp
  obtain ⟨w, hw⟩ : ∃ w, (hb.levels 6)[p / 64]? = some w := ⟨_, getElem?_eq_getElem hcov⟩
  have hmod : p % 64 < 64 := mod_lt _ (by decide)
  have hbit : hb.bit 6 p = w.getLsbD (p % 64) := by
    rw [← bitAt_of_getElem? hw hmod, div_add_mod']
    rfl
  rw [hbitmapGet, ← hp, show hbitmapLevels - 1 = 6 from rfl, hw, hbit]
  simp only [bind_eq_bind, bind_some, some.injEq]
  rw [Bool.eq_iff_iff, bne_iff_ne, Word.ne_zero_iff]
  simp only [BitVec.getLsbD_and, getLsbD_one_shiftLeft hmod, Bool.and_eq_true, decide_eq_true_eq]
  exact ⟨fun ⟨b, _, h1, h2⟩ => h2 ▸ h1, fun h1 => ⟨_, hmod, h1, rfl⟩⟩

theorem toInt_ofNat_of_lt {n} (h : n < 2 ^ 63) : (BitVec.ofNat 64 n).toInt = n := by
  rw [BitVec.toInt_eq_toNat_of_lt] <;>
    rw [BitVec.toNat_ofNat, mod_eq_of_lt (by omega)]
  omega

/-- The calls of `hbitmap_iter_next` return the set bits left in order, then -1. -/
theorem iterTrace_spec (hit : hb.Iterable) :
    ∀ (n : ℕ) (groups : List ℕ) {hbi : HBitmapIter} {p t : ℕ}, IterInv hb hbi p t →
      groups.Pairwise (· < ·) → (∀ j, j ∈ groups ↔ t ≤ j ∧ hb.bit 6 j = true) →
      (∀ j ∈ groups, j * 2 ^ hb.granularity < 2 ^ 63) →
      iterTrace hb n hbi = some ((groups.map (fun j => ((j * 2 ^ hb.granularity : ℕ) : ℤ)) ++
        replicate n (-1)).take n)
  | 0, _, _, _, _, _, _, _, _ => by rw [iterTrace, take_zero]
  | n + 1, groups, hbi, p, t, hinv, hsorted, hmem, hfit => by
    rcases hbitmapIterNext_spec hit hinv with ⟨hnone, hr⟩ | ⟨hbi', j, hr, hj, hbit, hmin, hinv'⟩
    · have hnil : groups = [] := by
        refine eq_nil_iff_forall_not_mem.2 fun j hj => ?_
        have := (hmem j).1 hj
        rw [hnone j this.1] at this
        exact Bool.false_ne_true this.2
      subst hnil
      have ih := iterTrace_spec hit n [] hinv hsorted hmem hfit
      rw [iterTrace, hr]
      simp only [bind_eq_bind, bind_some, ih]
      simp [replicate_succ]
    · cases groups with
      | nil => exact absurd ((hmem j).2 ⟨hj, hbit⟩) not_mem_nil
      | cons g groups =>
        have hg := (hmem g).1 (by simp)
        obtain ⟨hlt, hsorted'⟩ := pairwise_cons.1 hsorted
        have hgj : g = j := by
          refine le_antisymm ?_ (hmin g hg.1 hg.2)
          rcases mem_cons.1 ((hmem j).2 ⟨hj, hbit⟩) with rfl | h
          · exact le_rfl
          · exact (hlt j h).le
        subst hgj
        have hmem' : ∀ k, k ∈ groups ↔ g + 1 ≤ k ∧ hb.bit 6 k = true := by
          intro k
          constructor
          · intro hk
            exact ⟨hlt k hk, ((hmem k).1 (by simp [hk])).2⟩
          · rintro ⟨h1, h2⟩
            rcases mem_cons.1 ((hmem k).2 ⟨by omega, h2⟩) with rfl | h
            · omega
            · exact h
        have ih := iterTrace_spec hit n groups hinv' hsorted' hmem'
          fun k hk => hfit k (by simp [hk])
        rw [iterTrace, hr]
        simp only [bind_eq_bind, bind_some, ih]
        rw [toInt_ofNat_of_lt (hfit g (by simp))]
        simp only [List.map_cons, List.cons_append, List.take_succ_cons, some.injEq,
          cons.injEq, true_and, replicate_succ']
        rw [← append_assoc]
        exact (List.take_append_of_le_length (by simp)).symm

theorem HBitmap.WF.count_eq_ncard (h : hb.WF) : hb.count = Set.ncard {j | hb.bit 6 j = true} := by
  rw [h.count, HBitmap.countIn, ← Set.ncard_coe_finset]
  congr 1
  ext j
  simp only [Finset.coe_filter, Finset.mem_Ico, zero_le, true_and, Set.mem_ofPred_eq]
  exact ⟨fun hj => hj.2, fun hj => ⟨h.inside j hj, hj⟩⟩

/-- A well-formed bitmap whose bits are the touched groups meets the contract, if no group
starts at or past `2 ^ 63`. -/
theorem HBContract.of_wf {ops} (h : hb.WF) (hfit : ∀ i < size, i / 2 ^ hb.granularity < hb.size)
    (hsmall : ∀ j < hb.size, j * 2 ^ hb.granularity < 2 ^ 63)
    (hbits : ∀ j, hb.bit 6 j = true ↔ TouchedSinceReset hb.granularity ops j) :
    HBContract size hb.granularity ops hb where
  linked := h.linked
  sentinel := h.sentinel
  count := h.count_eq_ncard
  get i hi := ⟨_, hbitmapGet_spec h (hfit i hi), hbits _⟩
  iter first hfirst := by
    have hlt := hfit first hfirst
    obtain ⟨hbi, hinit, hinv⟩ := hbitmapIterInit_spec first hlt (h.covers hlt)
      (pathAt_zero_lt (hlt.trans_le h.size_le))
    have hmem : ∀ j, j ∈ (List.range hb.size).filter
        (fun j => decide (first / 2 ^ hb.granularity ≤ j) && hb.bit 6 j) ↔
        first / 2 ^ hb.granularity ≤ j ∧ hb.bit 6 j = true := by
      intro j
      rw [List.mem_filter, List.mem_range, Bool.and_eq_true, decide_eq_true_eq]
      exact ⟨fun hj => hj.2, fun hj => ⟨h.inside j hj.2, hj⟩⟩
    refine ⟨hbi, _, hinit, pairwise_lt_range.filter _, fun j => ?_, fun n =>
      iterTrace_spec h.iterable n _ hinv (pairwise_lt_range.filter _) hmem fun j hj =>
        hsmall j (h.inside j ((hmem j).1 hj).2)⟩
    rw [hmem, hbits]

/-- The groups of a size that rounds up without wrapping. -/
theorem groupsOf_eq (h1 : 1 ≤ size) (h2 : size + 2 ^ granularity ≤ 2 ^ 64) :
    groupsOf size granularity = (size - 1) / 2 ^ granularity + 1 := by
  have hpos : 0 < 2 ^ granularity := by positivity
  rw [groupsOf, show size + 2 ^ granularity + (2 ^ 64 - 1) =
    size - 1 + 2 ^ granularity + 2 ^ 64 by omega, add_mod_right, mod_eq_of_lt (by omega),
    add_div_right _ hpos]

theorem groupsOf_zero (granularity : ℕ) : groupsOf 0 granularity = 0 := by
  have : 0 < 2 ^ granularity := by positivity
  exact div_eq_of_lt (by omega)

/-- A size that wraps when rounded up gets a bitmap with no group. -/
theorem groupsOf_eq_zero (hg : granularity < 64) (h1 : size < 2 ^ 64)
    (h2 : 2 ^ 64 < size + 2 ^ granularity) : groupsOf size granularity = 0 := by
  have hle : 2 ^ granularity ≤ 2 ^ 63 := Nat.pow_le_pow_right (by decide) (by omega)
  rw [groupsOf]
  refine div_eq_of_lt ?_
  omega

theorem hbitmapRefines_of_le (h : size ≤ 2 ^ 63) : HBitmapRefines size granularity := by
  intro hb halloc ops hops
  obtain ⟨hg, hs, hgr, hwf, hempty⟩ := hbitmapAlloc_spec halloc
  have hpow : 2 ^ granularity ≤ 2 ^ 63 := Nat.pow_le_pow_right (by decide) (by omega)
  have hfit : ∀ i < size, i / 2 ^ granularity < hb.size := by
    intro i hi
    rw [hs, groupsOf_eq (by omega) (by omega)]
    exact Nat.lt_succ_of_le (Nat.div_le_div_right (by omega))
  obtain ⟨hb', hrun, hwf', hs', hgr', hbits⟩ := hbRun_spec (by omega) ops hwf (by rwa [hgr]) hops
  rw [hgr] at hgr' hbits
  subst hgr'
  refine ⟨hb', hrun, HBContract.of_wf hwf' (by rwa [hs']) (fun j hj => ?_) fun j => ?_⟩
  · rcases Nat.eq_zero_or_pos size with rfl | hpos
    · rw [hs', hs, groupsOf_zero] at hj
      exact absurd hj (not_lt_zero j)
    · rw [hs', hs, groupsOf_eq hpos (by omega)] at hj
      calc j * 2 ^ hb'.granularity
          ≤ (size - 1) / 2 ^ hb'.granularity * 2 ^ hb'.granularity :=
            Nat.mul_le_mul_right _ (Nat.lt_succ_iff.1 hj)
        _ ≤ size - 1 := div_mul_le_self _ _
        _ < 2 ^ 63 := by omega
  · rw [hbits, hempty]
    simp

/-- A bitmap with no group fails the assertion of `hbitmap_iter_init` on every call. -/
theorem hbitmapSet_of_size_zero (h : hb.size = 0) (start count : ℕ) :
    hbitmapSet hb start count = none := by
  simp [hbitmapSet, hbCountBetween, hbitmapIterInit, h]

/-- `hbitmap_iter_next` never returns `2 ^ 63` or more. -/
theorem hbitmapIterNext_lt {hbi hbi' item}
    (h : hbitmapIterNext hb hbi = some (hbi', item)) : item < 2 ^ 63 := by
  obtain ⟨⟨hbi₁, cur⟩, -, h⟩ := bind_eq_some_iff.1 h
  dsimp only at h
  split at h
  · cases h
    norm_num
  · cases h
    exact BitVec.toInt_lt

theorem not_hbitmapRefines_of_lt (hsize : size < 2 ^ 64) (h : 2 ^ 63 < size)
    (halloc : hbitmapAlloc size granularity = some hb) : ¬HBitmapRefines size granularity := by
  intro href
  obtain ⟨hg, hs, -, -, -⟩ := hbitmapAlloc_spec halloc
  rcases lt_or_ge (2 ^ 64) (size + 2 ^ granularity) with hwrap | hfit
  · obtain ⟨hb', hrun, -⟩ := href hb halloc [.set 0 1] (by simp [HBOp.Inside]; omega)
    rw [groupsOf_eq_zero hg hsize hwrap] at hs
    simp [hbRun, hbStep, hbitmapSet_of_size_zero hs] at hrun
  · obtain ⟨hb', -, hc⟩ := href hb halloc [.set (size - 1) 1] (by simp [HBOp.Inside]; omega)
    obtain ⟨hbi, groups, -, -, hmem, htrace⟩ := hc.iter (size - 1) (by omega)
    have htouch : TouchedSinceReset granularity [.set (size - 1) 1]
        ((size - 1) / 2 ^ granularity) :=
      ⟨[], size - 1, 1, [], rfl, ⟨le_rfl, Nat.div_le_div_right (by omega)⟩, by simp [NoReset]⟩
    cases groups with
    | nil => exact not_mem_nil ((hmem _).2 ⟨le_rfl, htouch⟩)
    | cons g groups =>
      have hge := ((hmem g).1 (by simp)).1
      have h1 := htrace 1
      obtain ⟨⟨hbi', item⟩, hnext, h1⟩ := bind_eq_some_iff.1 h1
      have hitem : item = ((g * 2 ^ granularity : ℕ) : ℤ) := by
        simpa [iterTrace] using h1
      have hlt := hbitmapIterNext_lt hnext
      have hbig : 2 ^ 63 ≤ g * 2 ^ granularity := by
        calc 2 ^ 63 = 2 ^ 63 / 2 ^ granularity * 2 ^ granularity :=
              (Nat.div_mul_cancel (Nat.pow_dvd_pow 2 (by omega))).symm
          _ ≤ (size - 1) / 2 ^ granularity * 2 ^ granularity :=
              Nat.mul_le_mul_right _ (Nat.div_le_div_right (by omega))
          _ ≤ g * 2 ^ granularity := mul_le_mul_right _ hge
      rw [hitem] at hlt
      exact absurd hlt (not_lt.2 (by exact_mod_cast hbig))

/-- The bitmaps that `hbitmap_alloc` accepts refine a set of groups exactly for sizes up to
`2 ^ 63`. -/
theorem hbitmapRefines_iff (hsize : size < 2 ^ 64)
    (halloc : hbitmapAlloc size granularity = some hb) :
    HBitmapRefines size granularity ↔ size ≤ 2 ^ 63 := by
  refine ⟨fun h => ?_, hbitmapRefines_of_le⟩
  by_contra hgt
  exact not_hbitmapRefines_of_lt hsize (not_le.1 hgt) halloc h

/-- Sixteen elements in groups of two. -/
theorem hbitmapRefines_sixteen : HBitmapRefines 16 1 :=
  (hbitmapRefines_iff (by decide) (some_get (by decide : (hbitmapAlloc 16 1).isSome)).symm).2
    (by decide)

/-- The rounding of `hbitmap_alloc` wraps : the bitmap has no group and setting its first
element aborts. -/
theorem not_hbitmapRefines_max : (hbitmapAlloc (2 ^ 64 - 1) 63).isSome ∧
    ¬HBitmapRefines (2 ^ 64 - 1) 63 :=
  ⟨by decide, not_hbitmapRefines_of_lt (by decide) (by decide)
    (some_get (by decide : (hbitmapAlloc (2 ^ 64 - 1) 63).isSome)).symm⟩

end QemuArm
