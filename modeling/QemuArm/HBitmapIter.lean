import QemuArm.HBitmapInv

/-!
# Iterating over a hierarchical bitmap

`IterInv hb hbi p t` says that the iterator has reached position `p` and has still to
visit the set bits from `t` on : in the last level the rest of the word of `p`, in each
level before it the bits after the path to `p`. `hbitmap_iter_init` establishes it,
`hbitmap_iter_next` moves it to the next set bit (`hbitmapIterNext_spec`) and
`hbitmap_iter_next_word` to the next nonzero word (`hbitmapIterNextWord_spec`).

An iterator keeps one copied word per level. `Standing hb owed hbi p t` is what is left of
`IterInv` when the levels change under it : the copies have only bits that are still set, and
among them the paths to the groups in `owed`, which the iterator has promised to return. An
iterator that owes all set groups is up to date (`Standing.iterInv`), so skipping words is
looked at for `Standing` alone.
-/

open Word

namespace QemuArm

open Function Bool BitVec

open HBitmap

/-! ## Paths -/

/-- The position in a level that the last-level position `p` lies under. -/
def pathAt (p level : ℕ) : ℕ := p / 64 ^ (6 - level)

theorem pathAt_six (p : ℕ) : pathAt p 6 = p := by simp [pathAt]

theorem pathAt_succ (p : ℕ) {l} (hl : l < 6) : pathAt p (l + 1) / 64 = pathAt p l := by
  unfold pathAt
  rw [Nat.div_div_eq_div_mul, ← pow_succ, show 6 - (l + 1) + 1 = 6 - l by omega]

theorem pathAt_five (p : ℕ) : pathAt p 5 = p / 64 := by simp [pathAt]

variable {p : ℕ}

theorem pathAt_mono {q} (h : p ≤ q) (l : ℕ) : pathAt p l ≤ pathAt q l :=
  Nat.div_le_div_right h

theorem pathAt_of_div {q} (h : p / 64 = q / 64) {l} (hl : l < 6) : pathAt p l = pathAt q l := by
  have : ∀ x, pathAt x l = x / 64 / 64 ^ (5 - l) := by
    intro x
    rw [pathAt, Nat.div_div_eq_div_mul, ← pow_succ', show 5 - l + 1 = 6 - l by omega]
  rw [this, this, h]

/-- The well-formedness that iteration relies on. -/
structure HBitmap.Iterable (hb : HBitmap) : Prop where
  linked : hb.Linked 6
  sentinel : hb.bit 0 63 = true
  top : ∀ j, hb.bit 0 j = true → j ≤ 63
  inside : ∀ j, hb.bit 6 j = true → pathAt j 0 < 63

namespace HBitmap

variable {hb : HBitmap}

/-- Above every set bit the whole path is set. -/
theorem bit_pathAt (h : hb.Iterable) {k} (hk : hb.bit 6 k = true) :
    ∀ n ≤ 6, hb.bit (6 - n) (pathAt k (6 - n)) = true
  | 0, _ => by rwa [Nat.sub_zero, pathAt_six]
  | n + 1, hn => by
    have ih := bit_pathAt h hk n (by omega)
    have hl : 6 - (n + 1) < 6 := by omega
    have hsucc : 6 - (n + 1) + 1 = 6 - n := by omega
    have hpath := pathAt_succ k hl
    rw [hsucc] at hpath
    refine (h.linked _ hl _ ?_).2 ?_
    · rintro ⟨h0, h63⟩
      have := h.inside k hk
      rw [h0] at h63
      omega
    · rw [hsucc, nonzeroWord_iff]
      exact ⟨_, hpath, ih⟩

theorem bit_pathAt_le (h : hb.Iterable) {k l} (hk : hb.bit 6 k = true) (hl : l ≤ 6) :
    hb.bit l (pathAt k l) = true := by
  have := bit_pathAt h hk (6 - l) (by omega)
  rwa [show 6 - (6 - l) = l by omega] at this

end HBitmap

/-! ## Parts of words -/

/-- `cur` has the bits of word `q` of a level from position `thr` on. -/
def CurIs (hb : HBitmap) (level : ℕ) (cur : Word) (q thr : ℕ) : Prop :=
  ∀ b < 64, cur.getLsbD b = (hb.bit level (q * 64 + b) && decide (thr ≤ q * 64 + b))

section CurIs

variable {hb : HBitmap} {level q thr : ℕ} {cur : Word}

theorem CurIs.of_getElem? {w} (h : (hb.levels level)[q]? = some w)
    (hthr : thr ≤ q * 64) : CurIs hb level w q thr := by
  intro b hb
  rw [decide_eq_true (by omega), Bool.and_true, HBitmap.bit, bitAt_of_getElem? h hb]

theorem CurIs.zero (hb : HBitmap) (level q : ℕ) : CurIs hb level 0#64 q ((q + 1) * 64) := by
  intro b hb
  rw [decide_eq_false (by omega), Bool.and_false, getLsbD_zero]

end CurIs

/-- `cur` has only set bits of word `q` of a level from position `thr` on, with all those
on the path to a group in `owed`. -/
structure CurLeads (hb : HBitmap) (owed : ℕ → Prop) (level : ℕ) (cur : Word) (q thr : ℕ) :
    Prop where
  sound : ∀ b < 64, cur.getLsbD b = true → hb.bit level (q * 64 + b) = true ∧ thr ≤ q * 64 + b
  path : ∀ k, owed k → pathAt k level / 64 = q → thr ≤ pathAt k level →
    cur.getLsbD (pathAt k level % 64) = true

section CurLeads

variable {hb : HBitmap} {owed : ℕ → Prop} {level q thr : ℕ} {cur : Word}

theorem CurLeads.of_curIs (h : CurIs hb level cur q thr)
    (howed : ∀ k, owed k → hb.bit level (pathAt k level) = true) :
    CurLeads hb owed level cur q thr where
  sound b hb64 hbit := by
    rw [h b hb64, and_eq_true, decide_eq_true_eq] at hbit
    exact hbit
  path k hk hq hthr := by
    rw [h _ (Nat.mod_lt _ (by decide)),
      show q * 64 + pathAt k level % 64 = pathAt k level by omega, howed k hk,
      decide_eq_true hthr, Bool.and_true]

section

variable (h : CurLeads hb owed level cur q thr)
include h

theorem CurLeads.mono {owed'} (hle : ∀ k, owed' k → owed k) : CurLeads hb owed' level cur q thr :=
  ⟨h.sound, fun k hk => h.path k (hle k hk)⟩

theorem CurLeads.ctzl_spec (hne : cur ≠ 0#64) :
    hb.bit level (q * 64 + ctzl cur) = true ∧ thr ≤ q * 64 + ctzl cur ∧
      ∀ k, owed k → q ≤ pathAt k level / 64 → thr ≤ pathAt k level →
        q * 64 + ctzl cur ≤ pathAt k level := by
  have hc64 := ctzl_lt hne
  obtain ⟨hbit, hthr⟩ := h.sound _ hc64 (getLsbD_ctzl hne)
  refine ⟨hbit, hthr, fun k hk hq hk' => ?_⟩
  rcases hq.lt_or_eq with hlt | rfl
  · omega
  · have := ctzl_le (h.path k hk rfl hk')
    omega

/-- Clearing the lowest bit moves the threshold past it. -/
theorem CurLeads.clear (hne : cur ≠ 0#64) :
    CurLeads hb owed level (cur &&& (cur - 1#64)) q (q * 64 + ctzl cur + 1) where
  sound b hb64 hbit := by
    rw [getLsbD_and_sub_one hne, and_eq_true, decide_eq_true_eq] at hbit
    refine ⟨(h.sound b hb64 hbit.1).1, ?_⟩
    have := ctzl_le hbit.1
    omega
  path k hk hq hthr := by
    have hge := (h.ctzl_spec hne).2.1
    rw [getLsbD_and_sub_one hne, h.path k hk hq (by omega), Bool.true_and, decide_eq_true_eq]
    omega

end

end CurLeads

/-! ## The state of an iterator -/

/-- The iterator stands at the word of position `p`. -/
structure Reached (hb : HBitmap) (hbi : HBitmapIter) (p : ℕ) : Prop where
  granularity : hbi.granularity = hb.granularity
  pos : hbi.pos = p / 64
  inside : pathAt p 0 < 63
  upper : ∀ l < 6, CurIs hb l (hbi.cur l) (pathAt p l / 64) (pathAt p l + 1)

/-- The iterator stands at the word of `p` and has the set bits from `t` on left. -/
structure IterInv (hb : HBitmap) (hbi : HBitmapIter) (p t : ℕ) : Prop extends Reached hb hbi p where
  start : p / 64 * 64 ≤ t
  stop : t ≤ (p / 64 + 1) * 64
  last : CurIs hb 6 (hbi.cur 6) (p / 64) t

variable {hb : HBitmap} {hbi : HBitmapIter}

/-- The remaining part of the last-level word can be replaced. -/
theorem Reached.setLast {t} (h : Reached hb hbi p) {w} (hw : CurIs hb 6 w (p / 64) t)
    (hstart : p / 64 * 64 ≤ t) (hstop : t ≤ (p / 64 + 1) * 64) :
    IterInv hb { hbi with cur := update hbi.cur 6 w } p t where
  granularity := h.granularity
  pos := h.pos
  inside := h.inside
  upper l hl := by
    show CurIs hb l (update hbi.cur 6 w l) _ _
    rw [update_of_ne (by omega)]
    exact h.upper l hl
  start := hstart
  stop := hstop
  last := by
    show CurIs hb 6 (update hbi.cur 6 w 6) _ _
    rwa [update_self]

/-- The iterator stands at the word of `p`, has dealt with the groups before `t`, and owes
the groups in `owed`. -/
structure Standing (hb : HBitmap) (owed : ℕ → Prop) (hbi : HBitmapIter) (p t : ℕ) : Prop where
  granularity : hbi.granularity = hb.granularity
  pos : hbi.pos = p / 64
  inside : pathAt p 0 < 63
  sentinel : (hbi.cur 0).getLsbD 63 = true
  upper : ∀ l < 6, CurLeads hb owed l (hbi.cur l) (pathAt p l / 64) (pathAt p l + 1)
  start : p / 64 * 64 ≤ t
  stop : t ≤ (p / 64 + 1) * 64
  last : CurLeads hb owed 6 (hbi.cur 6) (p / 64) t
  owed_set : ∀ k, owed k → t ≤ k ∧ hb.bit 6 k = true

/-- An iterator that is up to date owes every set group from `t` on. -/
theorem IterInv.standing {t} (hit : hb.Iterable) (h : IterInv hb hbi p t) :
    Standing hb (fun k => hb.bit 6 k = true ∧ t ≤ k) hbi p t where
  granularity := h.granularity
  pos := h.pos
  inside := h.inside
  sentinel := by
    have hp := h.inside
    rw [h.upper 0 (by decide) 63 (by decide), show pathAt p 0 / 64 * 64 + 63 = 63 by omega,
      hit.sentinel, decide_eq_true (by omega), Bool.and_true]
  upper l hl := CurLeads.of_curIs (h.upper l hl) fun k hk => bit_pathAt_le hit hk.1 (by omega)
  start := h.start
  stop := h.stop
  last := CurLeads.of_curIs h.last fun k hk => bit_pathAt_le hit hk.1 le_rfl
  owed_set k hk := ⟨hk.2, hk.1⟩

theorem Standing.mono {owed owed' t} (h : Standing hb owed hbi p t)
    (hle : ∀ k, owed' k → owed k) : Standing hb owed' hbi p t :=
  { h with
    upper := fun l hl => (h.upper l hl).mono hle
    last := h.last.mono hle
    owed_set := fun k hk => h.owed_set k (hle k hk) }

/-- Under every set bit of a level there is a set bit of the last one, the sentinel apart. -/
theorem HBitmap.Iterable.exists_below (hit : hb.Iterable) :
    ∀ d l n, d + l = 6 → ¬(l = 0 ∧ n = 63) → hb.bit l n = true →
      ∃ k, pathAt k l = n ∧ hb.bit 6 k = true
  | 0, l, n, hd, _, hbit => by
    obtain rfl : l = 6 := by omega
    exact ⟨n, pathAt_six n, hbit⟩
  | d + 1, l, n, hd, hs, hbit => by
    obtain ⟨m, hm, hbitm⟩ := nonzeroWord_iff.1 ((hit.linked l (by omega) n hs).1 hbit)
    obtain ⟨k, hk, hbitk⟩ := hit.exists_below d (l + 1) m (by omega) (by omega) hbitm
    exact ⟨k, by rw [← pathAt_succ k (by omega), hk, hm], hbitk⟩

/-- A bit after the path to `p` stands for groups past the word of `p`. -/
theorem lt_of_pathAt_lt {k l} (hl : l < 6) (h : pathAt p l < pathAt k l) : p / 64 < k / 64 := by
  by_contra hge
  have hle : pathAt k l ≤ pathAt (p / 64 * 64 + 63) l := pathAt_mono (by omega) l
  rw [pathAt_of_div (show (p / 64 * 64 + 63) / 64 = p / 64 by omega) hl] at hle
  omega

/-- When all of the set groups from `t` on are owed, the copies have all the bits. -/
theorem Standing.iterInv {owed t} (hit : hb.Iterable)
    (h : Standing hb owed hbi p t) (hall : ∀ k, t ≤ k → hb.bit 6 k = true → owed k) :
    IterInv hb hbi p t where
  granularity := h.granularity
  pos := h.pos
  inside := h.inside
  upper l hl b hb64 := by
    refine eq_iff_iff.2 ⟨fun hbit => ?_, fun hbit => ?_⟩
    · rw [and_eq_true, decide_eq_true_eq]
      exact (h.upper l hl).sound b hb64 hbit
    · rw [and_eq_true, decide_eq_true_eq] at hbit
      by_cases hs : l = 0 ∧ pathAt p l / 64 * 64 + b = 63
      · obtain ⟨rfl, hb63⟩ := hs
        rw [show b = 63 by omega]
        exact h.sentinel
      · obtain ⟨k, hk, hbitk⟩ := hit.exists_below (6 - l) l _ (by omega) hs hbit.1
        have hword := lt_of_pathAt_lt hl (show pathAt p l < pathAt k l by omega)
        have hstop := h.stop
        have hpath := (h.upper l hl).path k (hall k (by omega) hbitk) (by omega) (by omega)
        rwa [hk, show (pathAt p l / 64 * 64 + b) % 64 = b by omega] at hpath
  start := h.start
  stop := h.stop
  last b hb64 := by
    refine eq_iff_iff.2 ⟨fun hbit => ?_, fun hbit => ?_⟩
    · rw [and_eq_true, decide_eq_true_eq]
      exact h.last.sound b hb64 hbit
    · rw [and_eq_true, decide_eq_true_eq] at hbit
      have hpath := h.last.path (p / 64 * 64 + b) (hall _ hbit.2 hbit.1)
      rw [pathAt_six, show (p / 64 * 64 + b) % 64 = b by omega] at hpath
      exact hpath (by omega) hbit.2

/-! ## Skipping words -/

/-- The sentinel is the only bit of a nonzero word with nothing below it. -/
theorem ctzl_lt_of_ne_sentinel {w} (h : w ≠ 0#64) (hs : w ≠ 1#64 <<< 63) : ctzl w < 63 := by
  have hlt := ctzl_lt h
  by_contra hge
  have h63 : ctzl w = 63 := by omega
  refine hs (eq_of_getLsbD_eq fun b hb => ?_)
  rw [getLsbD_one_shiftLeft (by decide)]
  rcases lt_or_ge b 63 with hlow | hhigh
  · rw [getLsbD_of_lt_ctzl (by omega), decide_eq_false (by omega)]
  · obtain rfl : b = ctzl w := by omega
    rw [getLsbD_ctzl h, decide_eq_true h63]

section Skip

variable {hb : HBitmap} {owed : ℕ → Prop} {hbi : HBitmapIter} {p t : ℕ}

/-- Climbing stops at a level with bits left, and every group owed lies strictly after the
path there. -/
theorem skipUp_standing (h : Standing hb owed hbi p t) :
    ∀ l < 6, (∀ k, owed k → pathAt p l < pathAt k l) →
      ∃ i < 6, skipUp hbi (l + 1) (pathAt p l) = some (i, hbi.cur i, pathAt p i / 64) ∧
        hbi.cur i ≠ 0#64 ∧ ∀ k, owed k → pathAt p i < pathAt k i
  | l, hl, hafter => by
    by_cases h0 : hbi.cur l = 0#64
    · cases l with
      | zero =>
        have hsent := h.sentinel
        rw [h0] at hsent
        exact absurd hsent false_ne_true
      | succ l =>
        have hstep : ∀ k, owed k → pathAt p l < pathAt k l := by
          intro k hk
          have hlt := hafter k hk
          have h1 := pathAt_succ p (show l < 6 by omega)
          have h2 := pathAt_succ k (show l < 6 by omega)
          by_contra hge
          have hbit := (h.upper _ hl).path k hk (by omega) (by omega)
          rw [h0, getLsbD_zero] at hbit
          exact false_ne_true hbit
        obtain ⟨i, hi, hrun, hrest⟩ := skipUp_standing h l (by omega) hstep
        refine ⟨i, hi, ?_, hrest⟩
        rw [skipUp, if_pos h0, pathAt_succ p (by omega), hrun]
    · exact ⟨l, hl, by rw [skipUp, if_neg h0], h0, hafter⟩

/-- Descending from word `pos` of level `i` meets only nonzero words, and reaches one that
is not after any group owed. -/
theorem skipDown_standing (hit : hb.Iterable) (howed : ∀ k, owed k → hb.bit 6 k = true) :
    ∀ (n i : ℕ) (cur : Word) (pos thr : ℕ) hbi, n + i = 6 →
      CurLeads hb owed i cur pos thr → cur ≠ 0#64 → pos * 64 ≤ thr → (i = 6 → thr = pos * 64) →
      (i = 0 → ctzl cur < 63) → (∀ k, owed k → thr ≤ pathAt k i) →
      (∀ l < i, CurLeads hb owed l (hbi.cur l) (pos / 64 ^ (i - l)) (pos / 64 ^ (i - 1 - l) + 1)) →
      (0 < i → (hbi.cur 0).getLsbD 63 = true) → (i = 0 → cur.getLsbD 63 = true) →
      ∃ hbi' w, skipDown hb n i cur pos hbi = some (hbi', w) ∧ w ≠ 0#64 ∧
        CurLeads hb owed 6 w hbi'.pos (hbi'.pos * 64) ∧
        (∀ k, owed k → hbi'.pos * 64 + ctzl w ≤ k) ∧
        hbi'.granularity = hbi.granularity ∧
        thr ≤ pathAt (hbi'.pos * 64 + ctzl w) i ∧ (hbi'.cur 0).getLsbD 63 = true ∧
        ∀ l < 6,
          CurLeads hb owed l (hbi'.cur l) (hbi'.pos / 64 ^ (6 - l)) (hbi'.pos / 64 ^ (5 - l) + 1)
  | 0, i, cur, pos, thr, hbi, hn, hcur, hne, hthr, hfull, hsent, hleft, hup, htop, _ => by
    obtain rfl : i = 6 := by omega
    obtain ⟨hbit, hge, hmin⟩ := hcur.ctzl_spec hne
    obtain rfl := hfull rfl
    refine ⟨{ hbi with pos := pos }, cur, by rw [skipDown, if_neg hne], hne, hcur, ?_,
      rfl, by rwa [pathAt_six], htop (by decide), hup⟩
    intro k hk
    have hk6 := hleft k hk
    have hlow := hmin k hk (by omega) hk6
    rwa [pathAt_six] at hlow
  | n + 1, i, cur, pos, thr, hbi, hn, hcur, hne, hthr, hfull, hsent, hleft, hup, htop, hbot => by
    obtain ⟨hbit, hge, hmin⟩ := hcur.ctzl_spec hne
    have hc64 := ctzl_lt hne
    have hword : hb.NonzeroWord (i + 1) (pos * 64 + ctzl cur) := by
      refine (hit.linked i (by omega) _ ?_).1 hbit
      rintro ⟨rfl, h63⟩
      omega
    obtain ⟨w, hw, hwne⟩ := hword.getElem?
    have hdiv : (pos * 64 + ctzl cur) / 64 = pos := by omega
    have hpow : ∀ a b : ℕ, a = b + 1 → (pos * 64 + ctzl cur) / 64 ^ a = pos / 64 ^ b := by
      rintro a b rfl
      rw [pow_succ', ← Nat.div_div_eq_div_mul, hdiv]
    obtain ⟨hbi', w', hrun, hne', hcur', hmin', hgran, hpath, hs63, hup'⟩ :=
      skipDown_standing hit howed n (i + 1) w (pos * 64 + ctzl cur) ((pos * 64 + ctzl cur) * 64)
        { hbi with cur := update hbi.cur i (cur &&& (cur - 1#64)) } (by omega)
        (CurLeads.of_curIs (CurIs.of_getElem? hw le_rfl) fun k hk =>
          bit_pathAt_le hit (howed k hk) (by omega)) hwne le_rfl (fun _ => rfl) (by omega)
        (by
          intro k hk
          have h1 := hleft k hk
          have h2 := pathAt_succ k (show i < 6 by omega)
          have h4 := hmin k hk (by omega) h1
          omega)
        (by
          intro l hl
          rcases Nat.lt_succ_iff_lt_or_eq.1 hl with hl | rfl
          · show CurLeads hb owed l (update hbi.cur i _ l) _ _
            rw [update_of_ne hl.ne, hpow (i + 1 - l) (i - l) (by omega),
              hpow (i + 1 - 1 - l) (i - 1 - l) (by omega)]
            exact hup l hl
          · simp only [update_self, Nat.add_sub_cancel_left, pow_one, Nat.add_sub_cancel,
              Nat.sub_self, pow_zero, Nat.div_one, hdiv]
            exact hcur.clear hne)
        (by
          -- the sentinel is never the lowest bit here, so clearing keeps it
          intro _
          rcases Nat.eq_zero_or_pos i with rfl | hi
          · simp only [update_self]
            rw [getLsbD_and_sub_one hne, hbot rfl, Bool.true_and, decide_eq_true_eq]
            exact (hsent rfl).ne'
          · simp only [update_of_ne hi.ne]
            exact htop hi)
        (by omega)
    refine ⟨hbi', w', ?_, hne', hcur', hmin', hgran, ?_, hs63, hup'⟩
    · rw [skipDown, if_neg hne]
      simp only [hw, Option.bind_eq_bind, Option.bind_some]
      exact hrun
    · rw [← pathAt_succ _ (show i < 6 by omega)]
      omega

section

variable (hit : hb.Iterable)
include hit

/-- No assertion of `hbitmap_iter_skip_words` fails. It stops at a word with a set bit that
is not after any group owed, or finds that nothing is owed. -/
theorem hbitmapIterSkipWords_standing (h : Standing hb owed hbi p t) (h0 : hbi.cur 6 = 0#64) :
    ((∀ k, ¬owed k) ∧ hbitmapIterSkipWords hb hbi = some (hbi, 0#64)) ∨
      ∃ hbi' w p', hbitmapIterSkipWords hb hbi = some (hbi', w) ∧ w ≠ 0#64 ∧
        Standing hb owed { hbi' with cur := update hbi'.cur 6 w } p' (p' / 64 * 64) ∧
        t ≤ p' / 64 * 64 := by
  have hstart := h.start
  have hstop := h.stop
  obtain ⟨i, hi, hup, hne, hafter⟩ := skipUp_standing h 5 (by decide) (by
    intro k hk
    obtain ⟨htk, -⟩ := h.owed_set k hk
    rw [pathAt_five, pathAt_five]
    by_contra hge
    have hbit := h.last.path k hk (by rw [pathAt_six]; omega) (by rwa [pathAt_six])
    rw [h0, getLsbD_zero] at hbit
    exact false_ne_true hbit)
  rw [pathAt_five, ← h.pos] at hup
  have hskip : hbitmapIterSkipWords hb hbi = if i = 0 ∧ hbi.cur i = 1#64 <<< 63
      then some (hbi, 0#64) else skipDown hb (6 - i) i (hbi.cur i) (pathAt p i / 64) hbi := by
    show (skipUp hbi 6 hbi.pos).bind _ = _
    rw [hup]
    rfl
  by_cases hs : i = 0 ∧ hbi.cur i = 1#64 <<< 63
  · obtain ⟨rfl, hs⟩ := hs
    refine .inl ⟨fun k hk => ?_, by rw [hskip, if_pos ⟨rfl, hs⟩]⟩
    have hk0 := hit.inside k (h.owed_set k hk).2
    have hlt := hafter k hk
    have hbit := (h.upper 0 (by decide)).path k hk (by omega) (by omega)
    rw [hs, getLsbD_one_shiftLeft (by decide), decide_eq_true_eq] at hbit
    omega
  · rw [hskip, if_neg hs]
    have hword : ∀ l < i, pathAt p l = pathAt p i / 64 / 64 ^ (i - 1 - l) := by
      intro l hl
      unfold pathAt
      rw [Nat.div_div_eq_div_mul, Nat.div_div_eq_div_mul, ← pow_succ', ← pow_add]
      congr 2
      omega
    obtain ⟨hbi', w, hrun, hwne, hcur, hmin, hgran, hpath, hs63, hupper⟩ :=
      skipDown_standing hit (fun k hk => (h.owed_set k hk).2)
        (6 - i) i (hbi.cur i) (pathAt p i / 64) (pathAt p i + 1) hbi (by omega) (h.upper i hi) hne
        (by omega) (by omega)
        (by
          rintro rfl
          exact ctzl_lt_of_ne_sentinel hne fun h => hs ⟨rfl, h⟩)
        hafter
        (by
          intro l hl
          have hl' := h.upper l (by omega)
          rw [hword l hl, Nat.div_div_eq_div_mul, ← pow_succ,
            show i - 1 - l + 1 = i - l by omega] at hl'
          exact hl')
        (fun _ => h.sentinel) (fun h0 => h0 ▸ h.sentinel)
    obtain ⟨hbit, -, -⟩ := hcur.ctzl_spec hwne
    have hw64 := ctzl_lt hwne
    have hq : (hbi'.pos * 64 + ctzl w) / 64 = hbi'.pos := by omega
    have hpast := lt_of_pathAt_lt hi (show pathAt p i < pathAt (hbi'.pos * 64 + ctzl w) i by omega)
    have hlt : t ≤ (hbi'.pos * 64 + ctzl w) / 64 * 64 := by omega
    refine .inr ⟨hbi', w, hbi'.pos * 64 + ctzl w, hrun, hwne, ?_, hlt⟩
    refine ⟨hgran.trans h.granularity, hq.symm, hit.inside _ hbit, ?_, fun l hl => ?_,
      by omega, by omega, ?_, fun k hk => ⟨?_, (h.owed_set k hk).2⟩⟩
    · show (update hbi'.cur 6 w 0).getLsbD 63 = true
      rwa [update_of_ne (by decide)]
    · show CurLeads hb owed l (update hbi'.cur 6 w l) _ _
      have hl' : pathAt (hbi'.pos * 64 + ctzl w) l = hbi'.pos / 64 ^ (5 - l) := by
        rw [pathAt, show 6 - l = 5 - l + 1 by omega, pow_succ', ← Nat.div_div_eq_div_mul, hq]
      rw [update_of_ne (by omega), hl', Nat.div_div_eq_div_mul, ← pow_succ,
        show 5 - l + 1 = 6 - l by omega]
      exact hupper l hl
    · show CurLeads hb owed 6 (update hbi'.cur 6 w 6) _ _
      rw [hq]
      exact hcur
    · have := hmin k hk
      omega

/-- `hbitmap_iter_next` never fails. It returns a set group from `t` on that is not after
any group owed and owes the others from then on, or -1 if nothing is owed. -/
theorem hbitmapIterNext_standing (h : Standing hb owed hbi p t) :
    ((∀ k, ¬owed k) ∧ hbitmapIterNext hb hbi = some (hbi, -1)) ∨
      ∃ hbi' j, hbitmapIterNext hb hbi =
          some (hbi', (BitVec.ofNat 64 (j * 2 ^ hb.granularity)).toInt) ∧
        t ≤ j ∧ hb.bit 6 j = true ∧ (∀ k, owed k → j ≤ k) ∧
        Standing hb (fun k => owed k ∧ j + 1 ≤ k) hbi' j (j + 1) := by
  obtain ⟨hnone, hr⟩ | ⟨hbi', w, p', t', hr, hne, hst, ht⟩ :
      ((∀ k, ¬owed k) ∧ iterCurWord hb hbi = some (hbi, 0#64)) ∨
        ∃ hbi' w p' t', iterCurWord hb hbi = some (hbi', w) ∧ w ≠ 0#64 ∧
          Standing hb owed { hbi' with cur := update hbi'.cur 6 w } p' t' ∧ t ≤ t' := by
    by_cases h0 : hbi.cur 6 = 0#64
    · rw [show iterCurWord hb hbi = hbitmapIterSkipWords hb hbi from if_pos h0]
      exact (hbitmapIterSkipWords_standing hit h h0).imp_right
        fun ⟨hbi', w, p', hskip, hne, hst, ht⟩ => ⟨hbi', w, p', _, hskip, hne, hst, ht⟩
    · refine .inr ⟨hbi, hbi.cur 6, p, t, if_neg h0, h0, ?_, le_rfl⟩
      rwa [update_eq_self]
  · refine .inl ⟨hnone, ?_⟩
    simp [hbitmapIterNext, show hbitmapLevels - 1 = 6 from rfl, hr]
  · have hlast := hst.last
    simp only [update_self] at hlast
    obtain ⟨hbit, hge, hmin⟩ := hlast.ctzl_spec hne
    have hw64 := ctzl_lt hne
    have hstart := hst.start
    have hpos : hbi'.pos = p' / 64 := hst.pos
    have hgran : hbi'.granularity = hb.granularity := hst.granularity
    have hq : (p' / 64 * 64 + ctzl w) / 64 = p' / 64 := by omega
    have hpath : ∀ l < 6, pathAt (p' / 64 * 64 + ctzl w) l = pathAt p' l :=
      fun l hl => pathAt_of_div hq hl
    refine .inr ⟨{ hbi' with cur := update hbi'.cur 6 (w &&& (w - 1#64)) },
      p' / 64 * 64 + ctzl w, ?_, by omega, hbit, fun k hk => ?_, ⟨hgran, hpos.trans hq.symm, ?_, ?_,
        fun l hl => ?_, by omega, by omega, ?_, fun k hk => ⟨hk.2, (hst.owed_set k hk.1).2⟩⟩⟩
    · simp [hbitmapIterNext, show hbitmapLevels - 1 = 6 from rfl, hr, hne, hgran, hpos]
    · obtain ⟨hk', -⟩ := hst.owed_set k hk
      have := hmin k hk (by rw [pathAt_six]; omega) (by rwa [pathAt_six])
      rwa [pathAt_six] at this
    · rw [hpath 0 (by decide)]
      exact hst.inside
    · have hs := hst.sentinel
      exact hs
    · have hl' := hst.upper l hl
      simp only [update_of_ne (show l ≠ 6 by omega)] at hl' ⊢
      rw [hpath l hl]
      exact hl'.mono fun k hk => hk.1
    · rw [hq]
      exact (hlast.clear hne).mono fun k hk => hk.1

/-- The current word is the first one with a set bit left. -/
theorem iterCurWord_spec (hinv : IterInv hb hbi p t) :
    ((∀ k, t ≤ k → hb.bit 6 k = false) ∧ iterCurWord hb hbi = some (hbi, 0#64)) ∨
      ∃ hbi' w p', iterCurWord hb hbi = some (hbi', w) ∧ w ≠ 0#64 ∧ Reached hb hbi' p' ∧
        CurIs hb 6 w (p' / 64) t ∧ t < (p' / 64 + 1) * 64 ∧
        ∀ k, t ≤ k → hb.bit 6 k = true → p' / 64 ≤ k / 64 := by
  by_cases h0 : hbi.cur 6 = 0#64
  · rw [show iterCurWord hb hbi = hbitmapIterSkipWords hb hbi from if_pos h0]
    rcases hbitmapIterSkipWords_standing hit (hinv.standing hit) h0 with
      ⟨hnone, hr⟩ | ⟨hbi', w, p', hr, hne, hst, ht⟩
    · refine .inl ⟨fun k hk => ?_, hr⟩
      by_contra hbit
      exact hnone k ⟨by simpa using hbit, hk⟩
    · have hinv' := hst.iterInv hit fun k hk hbit => ⟨hbit, ht.trans hk⟩
      have hlast := hinv'.last
      simp only [update_self] at hlast
      refine .inr ⟨hbi', w, p', hr, hne, ⟨hst.granularity, hst.pos, hst.inside, fun l hl => ?_⟩,
        fun b hb64 => ?_, by omega, fun k hk hbit => ?_⟩
      · have hl' := hinv'.upper l hl
        simp only [update_of_ne (show l ≠ 6 by omega)] at hl'
        exact hl'
      · rw [hlast b hb64, decide_eq_true (by omega), decide_eq_true (by omega)]
      · have := (hst.owed_set k ⟨hbit, hk⟩).1
        omega
  · have hstart := hinv.start
    obtain ⟨-, hge, -⟩ := (hinv.standing hit).last.ctzl_spec h0
    have := ctzl_lt h0
    refine .inr ⟨hbi, hbi.cur 6, p, if_neg h0, h0, hinv.toReached, hinv.last, by omega,
      fun k hk _ => ?_⟩
    omega

/-- `hbitmap_iter_next` returns the first set bit left, or -1 if there is none. -/
theorem hbitmapIterNext_spec (hinv : IterInv hb hbi p t) :
    ((∀ k, t ≤ k → hb.bit 6 k = false) ∧ hbitmapIterNext hb hbi = some (hbi, -1)) ∨
      ∃ hbi' j, hbitmapIterNext hb hbi =
          some (hbi', (BitVec.ofNat 64 (j * 2 ^ hb.granularity)).toInt) ∧
        t ≤ j ∧ hb.bit 6 j = true ∧ (∀ k, t ≤ k → hb.bit 6 k = true → j ≤ k) ∧
        IterInv hb hbi' j (j + 1) := by
  rcases hbitmapIterNext_standing hit (hinv.standing hit) with
    ⟨hnone, hr⟩ | ⟨hbi', j, hr, hj, hbit, hmin, hst⟩
  · refine .inl ⟨fun k hk => ?_, hr⟩
    by_contra hbit
    exact hnone k ⟨by simpa using hbit, hk⟩
  · refine .inr ⟨hbi', j, hr, hj, hbit, fun k hk hkb => hmin k ⟨hkb, hk⟩, ?_⟩
    exact hst.iterInv hit fun k hk hkb => ⟨⟨hkb, by omega⟩, hk⟩

/-- `hbitmap_iter_next_word` returns the first word with a set bit left, trimmed to the
bits left, or `(size_t)-1` if there is none. -/
theorem hbitmapIterNextWord_spec (hinv : IterInv hb hbi p t) :
    ((∀ k, t ≤ k → hb.bit 6 k = false) ∧
        hbitmapIterNextWord hb hbi = some (hbi, 2 ^ 64 - 1, 0#64)) ∨
      ∃ hbi' w p', hbitmapIterNextWord hb hbi = some (hbi', p' / 64, w) ∧
        CurIs hb 6 w (p' / 64) t ∧ t < (p' / 64 + 1) * 64 ∧
        (∀ k, t ≤ k → hb.bit 6 k = true → p' / 64 ≤ k / 64) ∧
        IterInv hb hbi' p' ((p' / 64 + 1) * 64) := by
  rcases iterCurWord_spec hit hinv with ⟨hnone, hr⟩ | ⟨hbi', w, p', hr, hne, hrch, hcur, hlt, hmin⟩
  · refine .inl ⟨hnone, ?_⟩
    simp [hbitmapIterNextWord, show hbitmapLevels - 1 = 6 from rfl, hr]
  · refine .inr ⟨{ hbi' with cur := update hbi'.cur 6 0#64 }, w, p', ?_, hcur, hlt, hmin,
      hrch.setLast (CurIs.zero hb 6 _) (by omega) le_rfl⟩
    simp [hbitmapIterNextWord, show hbitmapLevels - 1 = 6 from rfl, hr, hne, hrch.pos]

end

end Skip

end QemuArm
