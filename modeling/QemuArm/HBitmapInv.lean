import QemuArm.HBitmapLevels

/-!
# The invariant across the levels of a hierarchical bitmap

`HBitmap.Linked` says of the levels up to a given one that a bit is set exactly when the
word it stands for is nonzero, the sentinel of level 0 apart. `hb_set_between` and
`hb_reset_between` at a level restore it for all levels above (`StepsUp.spec`) : they recurse on
a range of words that contains every word that changed between zero and nonzero.
-/

open Word

namespace QemuArm

namespace HBitmap

/-- Bit `j` of a level. -/
def bit (hb : HBitmap) (level j : ℕ) : Bool := bitAt (hb.levels level) j

/-- Word `n` of a level is nonzero. -/
def NonzeroWord (hb : HBitmap) (level n : ℕ) : Prop := (hb.levels level).getD n 0#64 ≠ 0#64

theorem nonzeroWord_iff {hb : HBitmap} {level n : ℕ} :
    hb.NonzeroWord level n ↔ ∃ j, j / 64 = n ∧ hb.bit level j = true := by
  unfold NonzeroWord bit
  rw [ne_eq, getD_eq_zero_iff]
  simp

theorem NonzeroWord.getElem? {hb : HBitmap} {level n : ℕ} (h : hb.NonzeroWord level n) :
    ∃ w, (hb.levels level)[n]? = some w ∧ w ≠ 0#64 := by
  rw [NonzeroWord, List.getD_eq_getElem?_getD] at h
  cases hw : (hb.levels level)[n]? with
  | some w =>
    rw [hw] at h
    exact ⟨w, rfl, h⟩
  | none => simp [hw] at h

/-- In every level before `level`, a bit is set exactly when its word of the next level is
nonzero, apart from the sentinel. -/
def Linked (hb : HBitmap) (level : ℕ) : Prop :=
  ∀ l < level, ∀ n, ¬(l = 0 ∧ n = 63) → (hb.bit l n = true ↔ hb.NonzeroWord (l + 1) n)

/-- Every level has a bit for every word of the next one. -/
def Stacked (hb : HBitmap) : Prop :=
  ∀ l < 6, (hb.levels (l + 1)).length ≤ 64 * (hb.levels l).length

/-- `hb'` differs from `hb` at most in words of the levels up to `level`. -/
structure SameShape (hb hb' : HBitmap) (level : ℕ) : Prop where
  size : hb'.size = hb.size
  count : hb'.count = hb.count
  granularity : hb'.granularity = hb.granularity
  length : ∀ l, (hb'.levels l).length = (hb.levels l).length
  below : ∀ l, level < l → hb'.levels l = hb.levels l

variable {hb : HBitmap} {level : ℕ} {ws : List Word}

theorem setLevel_levels_self : (hb.setLevel level ws).levels level = ws := by
  simp [setLevel]

theorem setLevel_levels_ne {l} (h : l ≠ level) : (hb.setLevel level ws).levels l = hb.levels l := by
  simp [setLevel, h]

theorem sameShape_setLevel (h : ws.length = (hb.levels level).length) :
    SameShape hb (hb.setLevel level ws) level := by
  refine ⟨rfl, rfl, rfl, fun l => ?_, fun l hl => setLevel_levels_ne hl.ne'⟩
  rcases eq_or_ne l level with rfl | hl
  · rw [setLevel_levels_self, h]
  · rw [setLevel_levels_ne hl]

theorem SameShape.trans {hb₁ hb₂ level₂} (h₁ : SameShape hb hb₁ level)
    (h₂ : SameShape hb₁ hb₂ level₂) (hle : level₂ ≤ level) : SameShape hb hb₂ level where
  size := h₂.size.trans h₁.size
  count := h₂.count.trans h₁.count
  granularity := h₂.granularity.trans h₁.granularity
  length l := (h₂.length l).trans (h₁.length l)
  below l hl := (h₂.below l (hle.trans_lt hl)).trans (h₁.below l hl)

theorem SameShape.stacked {hb'} (h : SameShape hb hb' level) (hs : hb.Stacked) : hb'.Stacked := by
  intro l hl
  rw [h.length, h.length]
  exact hs l hl

/-- The levels before `level` are linked whatever the words of `level + 1` are. -/
theorem Linked.setLevel (h : hb.Linked level) : (hb.setLevel (level + 1) ws).Linked level := by
  intro l hl n hn
  have h1 : l ≠ level + 1 := by omega
  have h2 : l + 1 ≠ level + 1 := by omega
  rw [bit, NonzeroWord, setLevel_levels_ne h1, setLevel_levels_ne h2]
  exact h l hl n hn

theorem Linked.mono {level'} (h : hb.Linked level') (hle : level ≤ level') : hb.Linked level :=
  fun l hl => h l (hl.trans_le hle)

/-- Linking one more level. -/
theorem Linked.succ (h : hb.Linked level) (hl : ∀ n, ¬(level = 0 ∧ n = 63) →
    (hb.bit level n = true ↔ hb.NonzeroWord (level + 1) n)) : hb.Linked (level + 1) := by
  intro l hlt n hn
  rcases Nat.lt_succ_iff_lt_or_eq.1 hlt with hlt | rfl
  · exact h l hlt n hn
  · exact hl n hn

end HBitmap

open HBitmap

/-! ## Setting and resetting -/

/-- `between` does one level and goes on with the reported words in the level above. -/
def StepsUp (v : Bool) (between : ℕ → HBitmap → ℕ → ℕ → Option HBitmap) : Prop :=
  ∀ level (hb : HBitmap) start last, start ≤ last → last / 64 < (hb.levels level).length →
    ∃ ws changed pos lastpos, LevelDone v (hb.levels level) start last ws changed pos lastpos ∧
      between level hb start last = match level with
        | 0 => some (hb.setLevel 0 ws)
        | l + 1 => if changed then between l (hb.setLevel (l + 1) ws) pos lastpos
          else some (hb.setLevel (l + 1) ws)

theorem stepsUp_hbSetBetween : StepsUp true hbSetBetween := by
  intro level hb start last hle hlen
  obtain ⟨ws, changed, hrun, hdone⟩ := hbSetLevel_spec hle hlen
  exact ⟨ws, changed, _, _, hdone, by cases level <;> simp [hbSetBetween, hrun]⟩

theorem stepsUp_hbResetBetween : StepsUp false hbResetBetween := by
  intro level hb start last hle hlen
  obtain ⟨ws, changed, pos, lastpos, hrun, hdone⟩ := hbResetLevel_spec hle hlen
  exact ⟨ws, changed, pos, lastpos, hdone, by cases level <;> simp [hbResetBetween, hrun]⟩

/-- An operation from a level on changes the bits of the range there, leaves the later levels
alone and keeps the levels before linked. -/
theorem StepsUp.spec {v between} (hsteps : StepsUp v between) :
    ∀ (level : ℕ) (hb : HBitmap) (start last : ℕ), level ≤ 6 →
    hb.Stacked → hb.Linked level → start ≤ last → last / 64 < (hb.levels level).length →
    last / 64 ^ level < 63 →
    ∃ hb', between level hb start last = some hb' ∧ SameShape hb hb' level ∧
      (∀ j, hb'.bit level j = if start ≤ j ∧ j ≤ last then v else hb.bit level j) ∧
      hb'.Linked level ∧ hb'.bit 0 63 = hb.bit 0 63
  | level, hb, start, last, hlev, hst, hlink, hle, hlen, htop => by
    obtain ⟨ws, changed, pos, lastpos, hdone, hrun⟩ := hsteps level hb start last hle hlen
    have hshape := sameShape_setLevel hdone.length
    have hbits : ∀ j, (hb.setLevel level ws).bit level j =
        if start ≤ j ∧ j ≤ last then v else hb.bit level j := by
      intro j
      rw [bit, setLevel_levels_self, hdone.bits]
      rfl
    cases level with
    | zero =>
      refine ⟨hb.setLevel 0 ws, hrun, hshape, hbits, by simp [Linked], ?_⟩
      rw [hbits, if_neg (by simp at htop; omega)]
    | succ l =>
      have hup : (hb.setLevel (l + 1) ws).levels l = hb.levels l :=
        setLevel_levels_ne (by omega)
      have hold := hlink.mono (Nat.le_succ l)
      -- the bits above are right once they change as the words of this level do
      have hword : ∀ n, ¬(l = 0 ∧ n = 63) → ((if changed = true ∧ pos ≤ n ∧ n ≤ lastpos then v
          else hb.bit l n) = true ↔ (hb.setLevel (l + 1) ws).NonzeroWord (l + 1) n) := by
        intro n hn
        have hbit : hb.bit l n = ((hb.levels (l + 1)).getD n 0#64 != 0#64) :=
          Bool.eq_iff_iff.2 ((hlink l (by omega) n hn).trans bne_iff_ne.symm)
        rw [NonzeroWord, setLevel_levels_self, ← bne_iff_ne, hdone.words, hbit]
      cases changed with
      | false =>
        refine ⟨hb.setLevel (l + 1) ws, hrun, hshape, hbits, hold.setLevel.succ fun n hn => ?_, ?_⟩
        · rw [← hword n hn, bit, hup]
          simp [bit]
        · rw [bit, setLevel_levels_ne (by omega), bit]
      | true =>
        obtain ⟨hpos, hple, hlast⟩ := hdone.range rfl
        have hstk : (hb.levels (l + 1)).length ≤ 64 * (hb.levels l).length := hst l (by omega)
        have htop' : lastpos / 64 ^ l < 63 := by
          refine (Nat.div_le_div_right hlast).trans_lt ?_
          rwa [Nat.div_div_eq_div_mul, ← pow_succ']
        obtain ⟨hb', hrec, hshape', hbits', hlink', hsent⟩ := spec hsteps l
          (hb.setLevel (l + 1) ws) pos lastpos (by omega) (hshape.stacked hst)
          hold.setLevel hple (by rw [hup]; omega) htop'
        have hsame : hb'.levels (l + 1) = (hb.setLevel (l + 1) ws).levels (l + 1) :=
          hshape'.below _ (Nat.lt_succ_self l)
        refine ⟨hb', hrun.trans hrec, hshape.trans hshape' (Nat.le_succ l), fun j => ?_,
          hlink'.succ fun n hn => ?_, ?_⟩
        · rw [← hbits, bit, hsame]
          rfl
        · rw [hbits', bit, hup]
          simpa only [true_and, NonzeroWord, hsame, bit] using hword n hn
        · rw [hsent, bit, setLevel_levels_ne (by omega), bit]

end QemuArm
