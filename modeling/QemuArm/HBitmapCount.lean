import QemuArm.HBitmapIter

/-!
# Starting an iteration and counting with it

`hbitmap_iter_init` leaves the set bits from the first position on
(`hbitmapIterInit_spec`), and `hb_count_between`, which adds up the words that
`hbitmap_iter_next_word` returns, counts the set bits of a range
(`hbCountBetween_spec`). Both need the bitmap to have a word for every position of every
level, `HBitmap.Covers`.
-/

open Word

namespace QemuArm

open Option Function BitVec Finset

open HBitmap

/-- Every level has the word on the path to `p`. -/
def HBitmap.Covers (hb : HBitmap) (p : ℕ) : Prop :=
  ∀ l ≤ 6, pathAt p l / 64 < (hb.levels l).length

/-! ## Starting -/

variable {hb : HBitmap}

/-- The loop of `hbitmap_iter_init` keeps, in each level, the bits after the path to `p`,
in the last level also `p` itself. -/
theorem iterInitCur_spec {p} (hcov : hb.Covers p) :
    ∀ (l : ℕ) cur, l ≤ 6 →
      ∃ cur', iterInitCur hb (l + 1) (pathAt p l) cur = some cur' ∧
        (∀ i, l < i → cur' i = cur i) ∧
        ∀ i ≤ l, CurIs hb i (cur' i) (pathAt p i / 64) (if i = 6 then p else pathAt p i + 1)
  | l, cur, hl => by
    obtain ⟨w, hget⟩ : ∃ w, (hb.levels l)[pathAt p l / 64]? = some w :=
      ⟨_, List.getElem?_eq_getElem (hcov l hl)⟩
    set kept := if l ≠ 6 then
        w &&& ~~~((1#64 <<< (pathAt p l % 64)) - 1#64) &&& ~~~(1#64 <<< (pathAt p l % 64))
      else w &&& ~~~((1#64 <<< (pathAt p l % 64)) - 1#64) with hkept
    have hmod : pathAt p l % 64 < 64 := Nat.mod_lt _ (by decide)
    have hcur : CurIs hb l kept (pathAt p l / 64) (if l = 6 then p else pathAt p l + 1) := by
      intro b hb64
      have hbit : hb.bit l (pathAt p l / 64 * 64 + b) = w.getLsbD b := bitAt_of_getElem? hget hb64
      rw [hbit, hkept]
      by_cases h6 : l = 6
      · subst h6
        rw [pathAt_six] at hmod ⊢
        rw [if_neg (by simp), if_pos rfl, getLsbD_and, getLsbD_not,
          getLsbD_one_shiftLeft_sub_one hmod, decide_eq_true hb64, Bool.true_and, ← decide_not]
        congr 1
        rw [decide_eq_decide]
        omega
      · rw [if_pos h6, if_neg h6, getLsbD_and, getLsbD_and, getLsbD_not,
          getLsbD_not, getLsbD_one_shiftLeft_sub_one hmod, getLsbD_one_shiftLeft hmod,
          decide_eq_true hb64, Bool.true_and, Bool.true_and, ← decide_not, ← decide_not,
          Bool.and_assoc, ← Bool.decide_and]
        congr 1
        rw [decide_eq_decide]
        omega
    have hstep : iterInitCur hb (l + 1) (pathAt p l) cur =
        iterInitCur hb l (pathAt p l / 64) (update cur l kept) := by
      rw [iterInitCur, hget]
      rfl
    cases l with
    | zero =>
      refine ⟨update cur 0 kept, hstep, fun i hi => ?_, fun i hi => ?_⟩
      · rw [update_of_ne (by omega)]
      · obtain rfl : i = 0 := by omega
        rwa [update_self]
    | succ l =>
      obtain ⟨cur', hrun, habove, hbelow⟩ :=
        iterInitCur_spec hcov l (update cur (l + 1) kept) (by omega)
      refine ⟨cur', by rw [hstep, pathAt_succ p (by omega), hrun], fun i hi => ?_, fun i hi => ?_⟩
      · rw [habove i (by omega), update_of_ne (by omega)]
      · rcases lt_or_ge l i with hlt | hge
        · obtain rfl : i = l + 1 := by omega
          rw [habove _ hlt, update_self]
          exact hcur
        · exact hbelow i hge

/-- `hbitmap_iter_init` succeeds on a position of the bitmap and leaves the set bits from
it on. -/
theorem hbitmapIterInit_spec (first : ℕ) (hsize : first / 2 ^ hb.granularity < hb.size)
    (hcov : hb.Covers (first / 2 ^ hb.granularity))
    (hin : pathAt (first / 2 ^ hb.granularity) 0 < 63) :
    ∃ hbi, hbitmapIterInit hb first = some hbi ∧
      IterInv hb hbi (first / 2 ^ hb.granularity) (first / 2 ^ hb.granularity) := by
  set p := first / 2 ^ hb.granularity with hp
  obtain ⟨cur, hrun, -, hcur⟩ := iterInitCur_spec hcov 6 (fun _ => 0#64) le_rfl
  rw [pathAt_six] at hrun
  refine
    ⟨⟨hb.granularity, p / 64, cur⟩, ?_, ⟨rfl, rfl, hin, fun l hl => ?_⟩, by omega, by omega, ?_⟩
  · rw [hbitmapIterInit, if_pos hsize, show hbitmapLevels = 6 + 1 from rfl, hrun]
    rfl
  · have := hcur l (by omega)
    rwa [if_neg (by omega)] at this
  · have := hcur 6 le_rfl
    rwa [pathAt_six] at this

/-! ## Counting -/

/-- The number of set bits of the last level from `a` up to `b`. -/
def HBitmap.countIn (hb : HBitmap) (a b : ℕ) : ℕ := ((Finset.Ico a b).filter (hb.bit 6 ·)).card

theorem HBitmap.countIn_add (hb : HBitmap) {a b c} (hab : a ≤ b) (hbc : b ≤ c) :
    hb.countIn a b + hb.countIn b c = hb.countIn a c := by
  unfold countIn
  rw [← Finset.Ico_union_Ico_eq_Ico hab hbc, filter_union, card_union_of_disjoint]
  exact disjoint_filter_filter (Finset.Ico_disjoint_Ico_consecutive a b c)

theorem HBitmap.countIn_eq_zero {a b} (h : ∀ k, a ≤ k → k < b → hb.bit 6 k = false) :
    hb.countIn a b = 0 := by
  refine card_eq_zero.2 (filter_eq_empty_iff.2 fun k hk => ?_)
  rw [h k (mem_Ico.1 hk).1 (mem_Ico.1 hk).2]
  simp

/-- The bits of a word are counted where the word stands. -/
theorem popcountl_eq_card {w : Word} {q : ℕ} {P : ℕ → Bool}
    (h : ∀ b < 64, w.getLsbD b = P (q * 64 + b)) :
    popcountl w = ((Finset.Ico (q * 64) ((q + 1) * 64)).filter (P ·)).card := by
  have hrange : popcountl w = ((Finset.range 64).filter (w.getLsbD ·)).card := by
    rw [popcountl, List.countP_eq_length_filter, card_def, filter_val, range_val, Multiset.range,
      Multiset.filter_coe]
    simp
  rw [hrange]
  refine card_bij (fun b _ => q * 64 + b) ?_ ?_ ?_
  · intro b hb
    rw [mem_filter, mem_range] at hb
    rw [mem_filter, mem_Ico, ← h b hb.1]
    exact ⟨by omega, hb.2⟩
  · intro b _ b' _ heq
    exact Nat.add_left_cancel heq
  · intro k hk
    rw [mem_filter, mem_Ico] at hk
    refine ⟨k - q * 64, ?_, by omega⟩
    rw [mem_filter, mem_range, h _ (by omega), show q * 64 + (k - q * 64) = k by omega]
    exact ⟨by omega, hk.2⟩

theorem CurIs.popcountl_eq {w : Word} {q t : ℕ} (h : CurIs hb 6 w q t) :
    popcountl w = hb.countIn (max t (q * 64)) ((q + 1) * 64) := by
  rw [popcountl_eq_card (q := q) (P := fun k => hb.bit 6 k && decide (t ≤ k)) h]
  congr 1
  ext k
  simp only [mem_filter, mem_Ico, Bool.and_eq_true, decide_eq_true_eq]
  constructor
  · rintro ⟨h1, h2, h3⟩
    exact ⟨by omega, h2⟩
  · rintro ⟨h1, h2⟩
    exact ⟨by omega, h2, by omega⟩

/-- The counting loop adds up the words before `stop` and returns the first word from
there on, trimmed to the bits from `t` on. -/
theorem countWords_spec (hit : hb.Iterable) (stop : ℕ) (hstop : stop < 2 ^ 64 - 1) :
    ∀ (fuel : ℕ) hbi (p t count : ℕ), IterInv hb hbi p t →
      t / 64 ≤ stop → stop + 1 ≤ fuel + t / 64 →
      ∃ pos cur, countWords hb stop fuel hbi count =
          some (count + hb.countIn t (stop * 64), pos, cur) ∧
        (pos = stop → CurIs hb 6 cur stop t) ∧
        (pos ≠ stop → ∀ k, t ≤ k → k / 64 = stop → hb.bit 6 k = false)
  | 0, _, _, _, _, _, h1, h2 => by omega
  | fuel + 1, hbi, p, t, count, hinv, h1, h2 => by
    rcases hbitmapIterNextWord_spec hit hinv with
      ⟨hnone, hr⟩ | ⟨hbi', w, p', hr, hcur, hlt, hmin, hinv'⟩
    · refine ⟨2 ^ 64 - 1, 0#64, ?_, by omega, fun _ k hk _ => hnone k hk⟩
      rw [countWords, hr]
      simp only [bind_eq_bind, bind_some]
      rw [if_pos (by omega), countIn_eq_zero fun k hk _ => hnone k hk, add_zero]
    · rcases lt_or_ge (p' / 64) stop with hq | hq
      · obtain ⟨pos, cur, hrun, hin, hout⟩ := countWords_spec hit stop hstop fuel hbi' p'
          ((p' / 64 + 1) * 64) (count + popcountl w) hinv' (by omega) (by omega)
        refine ⟨pos, cur, ?_, fun h b hb => ?_, fun h k hk hks => hout h k (by omega) hks⟩
        · rw [countWords, hr]
          simp only [bind_eq_bind, bind_some]
          rw [if_neg (by omega), hrun, hcur.popcountl_eq, add_assoc]
          have hgap : hb.countIn t (max t (p' / 64 * 64)) = 0 := by
            refine countIn_eq_zero fun k hk hk' => ?_
            by_contra hbit
            have := hmin k hk (by simpa using hbit)
            omega
          rw [countIn_add _ (by omega) (by omega), ← hb.countIn_add (le_max_left t (p' / 64 * 64))
            (by omega : _ ≤ stop * 64), hgap, zero_add]
        · rw [hin h b hb, decide_eq_true (by omega), decide_eq_true (by omega)]
      · refine ⟨p' / 64, w, ?_, fun h => h ▸ hcur, fun h k hk hks => ?_⟩
        · rw [countWords, hr]
          simp only [bind_eq_bind, bind_some]
          rw [if_pos hq, countIn_eq_zero fun k hk hk' => ?_, add_zero]
          by_contra hbit
          have := hmin k hk (by simpa using hbit)
          omega
        · by_contra hbit
          have := hmin k hk (by simpa using hbit)
          omega

/-- `hb_count_between` counts the set bits of the range. -/
theorem hbCountBetween_spec (hit : hb.Iterable) {start last : ℕ} (hle : start ≤ last)
    (hlast : last < 2 ^ 64) (hsize : start < hb.size) (hcov : hb.Covers start)
    (hin : pathAt start 0 < 63) :
    hbCountBetween hb start last = some (hb.countIn start (last + 1)) := by
  have hdiv : start * 2 ^ hb.granularity / 2 ^ hb.granularity = start :=
    Nat.mul_div_cancel _ (by positivity)
  obtain ⟨hbi, hinit, hinv⟩ := hbitmapIterInit_spec
    (start * 2 ^ hb.granularity) (by rwa [hdiv]) (by rwa [hdiv]) (by rwa [hdiv])
  rw [hdiv] at hinv
  obtain ⟨pos, cur, hrun, hcur, hout⟩ := countWords_spec hit ((last + 1) / 64) (by omega)
    ((last + 1) / 64 + 1) hbi start start 0 hinv (by omega) (by omega)
  have htail : hb.countIn start (last + 1) = hb.countIn start ((last + 1) / 64 * 64) +
      hb.countIn (max start ((last + 1) / 64 * 64)) (last + 1) := by
    rcases lt_or_ge ((last + 1) / 64 * 64) start with h | h
    · rw [max_eq_left h.le, countIn_eq_zero (b := (last + 1) / 64 * 64) (by omega), zero_add]
    · rw [max_eq_right h, countIn_add _ h (by omega)]
  rw [hbCountBetween]
  simp only [hinit, hrun, bind_eq_bind, bind_some, zero_add]
  split_ifs with hpos
  · rw [htail]
    congr 2
    have hmod : (last + 1) % 64 < 64 := Nat.mod_lt _ (by decide)
    rw [popcountl_eq_card (q := (last + 1) / 64)
      (P := fun k => hb.bit 6 k && decide (start ≤ k) && decide (k < last + 1))]
    · congr 1
      ext k
      simp only [mem_filter, mem_Ico, Bool.and_eq_true, decide_eq_true_eq]
      constructor
      · rintro ⟨h1, ⟨h2, h3⟩, h4⟩
        exact ⟨by omega, h2⟩
      · rintro ⟨h1, h2⟩
        exact ⟨by omega, ⟨h2, by omega⟩, by omega⟩
    · intro b hb
      rw [getLsbD_and, hcur hpos b hb, getLsbD_one_shiftLeft_sub_one hmod]
      congr 1
      rw [decide_eq_decide]
      omega
  · rw [htail, countIn_eq_zero (a := max _ _), add_zero]
    intro k hk hk'
    exact hout hpos k (by omega) (by omega)

end QemuArm
