import QemuArm.HBitmap

/-!
# One level of a hierarchical bitmap

What `hb_set_between` and `hb_reset_between` do to the words of one level, as sets of
bits : `hbSetLevel_spec` and `hbResetLevel_spec`. Both report words of the range, for the level
above to change its bits there in the same way : every reported word is nonzero after setting
and zero after resetting, and no other word changes between the two.
-/

open Word

namespace QemuArm

open Option

theorem or_63_add_one (n : ℕ) : (n ||| 63) + 1 = (n / 64 + 1) * 64 := by
  have h : n ||| 63 = 64 * (n / 64) + 63 := by
    refine Nat.eq_of_testBit_eq fun i => ?_
    rw [Nat.testBit_or, show (64 : ℕ) = 2 ^ 6 by rfl,
      Nat.testBit_two_pow_mul_add _ (by decide : 63 < 2 ^ 6), Nat.testBit_div_two_pow]
    have h63 : (63 : ℕ).testBit i = decide (i < 6) := Nat.testBit_two_pow_sub_one 6 i
    rw [h63]
    by_cases hi : i < 6
    · simp [hi]
    · simp [hi, Nat.sub_add_cancel (not_lt.1 hi)]
  omega

/-! ## The words of a range -/

variable {start last j : ℕ}

/-- Writing the word at `last` changes the bits from `start` to `last`. -/
theorem bitAt_set_range {ws : List Word} {elem : Word} {v : Bool} (h : last / 64 = start / 64)
    (hlen : last / 64 < ws.length) (hbits : ∀ b < 64, elem.getLsbD b =
      if start % 64 ≤ b ∧ b ≤ last % 64 then v else ws[last / 64].getLsbD b) (j : ℕ) :
    bitAt (ws.set (last / 64) elem) j = if start ≤ j ∧ j ≤ last then v else bitAt ws j := by
  rw [bitAt_set hlen]
  by_cases hj : j / 64 = last / 64
  · rw [if_pos hj, hbits _ (Nat.mod_lt _ (by decide)), bitAt, hj, List.getD_eq_getElem _ _ hlen]
    exact if_congr (by omega) rfl rfl
  · rw [if_neg hj, if_neg (by omega)]

/-- A loop that writes `w` to the `n` words from `i` on, and notes a word with `p` -/
theorem wordLoop_spec {w : Word} {p : Word → Bool}
    (loop : ℕ → List Word → ℕ → Bool → Option (List Word × Bool))
    (hzero : ∀ ws i changed, loop 0 ws i changed = some (ws, changed))
    (hsucc : ∀ n ws i changed, loop (n + 1) ws i changed =
      ws[i]?.bind fun elem => loop n (ws.set i w) (i + 1) (changed || p elem)) :
    ∀ (n : ℕ) (ws : List Word) (i : ℕ) (changed : Bool), i + n ≤ ws.length →
      ∃ ws' changed', loop n ws i changed = some (ws', changed') ∧ ws'.length = ws.length ∧
        (∀ j, bitAt ws' j =
          if i ≤ j / 64 ∧ j / 64 < i + n then w.getLsbD (j % 64) else bitAt ws j) ∧
        (changed' = true ↔ changed = true ∨ ∃ m, i ≤ m ∧ m < i + n ∧ p (ws.getD m 0#64) = true)
  | 0, ws, i, changed, _ => by
    refine ⟨ws, changed, hzero _ _ _, rfl, fun j => ?_, ?_⟩
    · rw [if_neg (by omega)]
    · constructor
      · exact .inl
      · rintro (h | ⟨m, h1, h2, -⟩)
        · exact h
        · omega
  | n + 1, ws, i, changed, hlen => by
    have hi : i < ws.length := by omega
    obtain ⟨ws', changed', hrun, hl, hbits, hch⟩ := wordLoop_spec loop hzero hsucc n
      (ws.set i w) (i + 1) (changed || p ws[i]) (by simp; omega)
    refine ⟨ws', changed', ?_, by simpa using hl, fun j => ?_, ?_⟩
    · rw [hsucc, List.getElem?_eq_getElem hi]
      exact hrun
    · rw [hbits, bitAt_set hi]
      split_ifs <;> first | rfl | omega
    · have hget : ws.getD i 0#64 = ws[i] := List.getD_eq_getElem _ _ hi
      rw [hch, Bool.or_eq_true]
      constructor
      · rintro ((h | h) | ⟨m, h1, h2, h3⟩)
        · exact .inl h
        · exact .inr ⟨i, le_rfl, by omega, by rwa [hget]⟩
        · exact .inr ⟨m, by omega, by omega, by rwa [getD_set_ne (by omega)] at h3⟩
      · rintro (h | ⟨m, h1, h2, h3⟩)
        · exact .inl (.inl h)
        · rcases eq_or_ne m i with rfl | hm
          · exact .inl (.inr (by rwa [hget] at h3))
          · exact .inr ⟨m, by omega, by omega, by rwa [getD_set_ne hm]⟩

/-- What one level of an operation that makes the bits of a range `v` does to the words `ws`, and
what it reports for the level above. -/
structure LevelDone (v : Bool) (ws : List Word) (start last : ℕ) (ws' : List Word)
    (changed : Bool) (pos lastpos : ℕ) : Prop where
  length : ws'.length = ws.length
  bits : ∀ j, bitAt ws' j = if start ≤ j ∧ j ≤ last then v else bitAt ws j
  range : changed = true → start / 64 ≤ pos ∧ pos ≤ lastpos ∧ lastpos ≤ last / 64
  words : ∀ n, (ws'.getD n 0#64 != 0#64) =
    if changed = true ∧ pos ≤ n ∧ n ≤ lastpos then v else ws.getD n 0#64 != 0#64

section

-- `fn` changes one element and `loop` whole words
variable {v : Bool} {w : Word} {p : Word → Bool} {report : Word → Word → Bool}
  {fn : Word → ℕ → ℕ → Option (Word × Bool)}
  (loop : ℕ → List Word → ℕ → Bool → Option (List Word × Bool)) (ws : List Word)
  (hfn : ∀ elem start last, last / 64 = start / 64 → start ≤ last → ∃ elem',
    fn elem start last = some (elem', report elem elem') ∧ ∀ b < 64, elem'.getLsbD b =
      if start % 64 ≤ b ∧ b ≤ last % 64 then v else elem.getLsbD b)
include hfn

theorem onePiece (h : last / 64 = start / 64) (hle : start ≤ last) (hlen : last / 64 < ws.length) :
    ∃ elem', ws[last / 64]? = some (ws.getD (last / 64) 0#64) ∧
      fn (ws.getD (last / 64) 0#64) start last =
        some (elem', report (ws.getD (last / 64) 0#64) elem') ∧
      (ws.set (last / 64) elem').getD (last / 64) 0#64 = elem' ∧
      ∀ j, bitAt (ws.set (last / 64) elem') j = if start ≤ j ∧ j ≤ last then v else bitAt ws j := by
  rw [List.getD_eq_getElem _ _ hlen]
  obtain ⟨elem', hrun, hbits⟩ := hfn ws[last / 64] start last h hle
  exact ⟨elem', List.getElem?_eq_getElem hlen, hrun, by simp [hlen], bitAt_set_range h hlen hbits⟩

/-- A range is changed in its first word, in the words between, and in its last word. -/
theorem threePieces (hw : ∀ b < 64, w.getLsbD b = v)
    (hzero : ∀ ws i changed, loop 0 ws i changed = some (ws, changed))
    (hsucc : ∀ n ws i changed, loop (n + 1) ws i changed =
      ws[i]?.bind fun elem => loop n (ws.set i w) (i + 1) (changed || p elem))
    (hpos : start / 64 < last / 64) (hlen : last / 64 < ws.length) :
    ∃ e₁ ws₂ c₂ e₃, ws[start / 64]? = some (ws.getD (start / 64) 0#64) ∧
      fn (ws.getD (start / 64) 0#64) start ((start / 64 + 1) * 64 - 1) =
        some (e₁, report (ws.getD (start / 64) 0#64) e₁) ∧
      loop (last / 64 - (start / 64 + 1)) (ws.set (start / 64) e₁) (start / 64 + 1)
        (report (ws.getD (start / 64) 0#64) e₁) = some (ws₂, c₂) ∧
      ws₂[last / 64]? = some (ws.getD (last / 64) 0#64) ∧
      fn (ws.getD (last / 64) 0#64) ((start / 64 + 1) * 64 + 64 * (last / 64 - (start / 64 + 1)))
        last = some (e₃, report (ws.getD (last / 64) 0#64) e₃) ∧
      (ws₂.set (last / 64) e₃).length = ws.length ∧
      (ws₂.set (last / 64) e₃).getD (start / 64) 0#64 = e₁ ∧
      (ws₂.set (last / 64) e₃).getD (last / 64) 0#64 = e₃ ∧
      (∀ j, bitAt (ws₂.set (last / 64) e₃) j =
        if start ≤ j ∧ j ≤ last then v else bitAt ws j) ∧
      (c₂ = true ↔ report (ws.getD (start / 64) 0#64) e₁ = true ∨
        ∃ m, start / 64 < m ∧ m < last / 64 ∧ p (ws.getD m 0#64) = true) := by
  have hdiv : ((start / 64 + 1) * 64 - 1) / 64 = start / 64 := by omega
  rw [show (start / 64 + 1) * 64 + 64 * (last / 64 - (start / 64 + 1)) = last / 64 * 64 by omega]
  obtain ⟨e₁, hget₁, hrun₁, hself₁, hbits₁⟩ := onePiece ws hfn hdiv (by omega) (by omega)
  rw [hdiv] at hget₁ hrun₁ hself₁ hbits₁
  obtain ⟨ws₂, c₂, hrun₂, hlen₂, hbits₂, hch₂⟩ := wordLoop_spec loop hzero hsucc
    (last / 64 - (start / 64 + 1)) (ws.set (start / 64) e₁) (start / 64 + 1)
    (report (ws.getD (start / 64) 0#64) e₁) (by simp; omega)
  rw [List.length_set] at hlen₂
  obtain ⟨e₃, hget₃, hrun₃, hself₃, hbits₃⟩ := onePiece ws₂ hfn
    (show last / 64 = last / 64 * 64 / 64 by omega) (by omega) (by omega)
  have hlast : ws₂.getD (last / 64) 0#64 = ws.getD (last / 64) 0#64 := getD_ext fun j hj => by
    rw [hbits₂, if_neg (by omega), hbits₁, if_neg (by omega)]
  rw [hlast] at hget₃ hrun₃
  refine ⟨e₁, ws₂, c₂, e₃, hget₁, hrun₁, hrun₂, hget₃, hrun₃, by simp [hlen₂], ?_, hself₃,
    fun j => ?_, hch₂.trans (or_congr_right (exists_congr fun m => ?_))⟩
  · rw [← hself₁]
    exact getD_ext fun j hj => by rw [hbits₃, if_neg (by omega), hbits₂, if_neg (by omega)]
  · rw [hbits₃, hbits₂, hbits₁, hw _ (Nat.mod_lt _ (by decide))]
    split_ifs <;> first | rfl | omega
  · rw [show start / 64 + 1 + (last / 64 - (start / 64 + 1)) = last / 64 by omega]
    refine and_congr_right fun hm => ?_
    rw [getD_set_ne (by omega)]

end

/-! ## Setting -/

theorem hbSetElem_spec (elem : Word) (start last : ℕ) (h : last / 64 = start / 64)
    (hle : start ≤ last) : ∃ elem', hbSetElem elem start last = some (elem', elem == 0#64) ∧
      ∀ b < 64, elem'.getLsbD b =
        if start % 64 ≤ b ∧ b ≤ last % 64 then true else elem.getLsbD b := by
  refine ⟨_, if_pos ⟨h, hle⟩, fun b _ => ?_⟩
  rw [BitVec.getLsbD_or, getLsbD_rangeMask (by omega) (Nat.mod_lt _ (by decide))]
  split_ifs with hb <;> simp [hb]

/-- One level of `hbitmap_set`. -/
theorem hbSetLevel_spec {ws} (hle : start ≤ last) (hlen : last / 64 < ws.length) :
    ∃ ws' changed, hbSetLevel ws start last = some (ws', changed) ∧
      LevelDone true ws start last ws' changed (start / 64) (last / 64) := by
  suffices h : ∃ ws' changed, hbSetLevel ws start last = some (ws', changed) ∧
      ws'.length = ws.length ∧
      (∀ j, bitAt ws' j = if start ≤ j ∧ j ≤ last then true else bitAt ws j) ∧
      ∀ m, start / 64 ≤ m → m ≤ last / 64 → ws.getD m 0#64 = 0#64 → changed = true by
    obtain ⟨ws', changed, hrun, hl, hbits, hch⟩ := h
    refine ⟨ws', changed, hrun, hl, hbits, fun _ => ⟨le_rfl, by omega, le_rfl⟩, fun n => ?_⟩
    by_cases hn : start / 64 ≤ n ∧ n ≤ last / 64
    · have hne : ws'.getD n 0#64 ≠ 0#64 := fun h0 => by
        have := getD_eq_zero_iff.1 h0 (max start (n * 64)) (by omega)
        rw [hbits, if_pos (by omega)] at this
        cases this
      rw [bne_iff_ne.2 hne]
      split_ifs with hc
      · rfl
      · exact (bne_iff_ne.2 fun h0 => hc ⟨hch n hn.1 hn.2 h0, hn⟩).symm
    · rw [if_neg fun h => hn h.2, getD_ext fun j hj => (hbits j).trans (if_neg (by omega))]
  unfold hbSetLevel
  by_cases hpos : start / 64 < last / 64
  · obtain ⟨e₁, ws₂, c₂, e₃, hget₁, hrun₁, hrun₂, hget₃, hrun₃, hl, -, -, hbits, hch⟩ :=
      threePieces (w := BitVec.allOnes 64) (p := (· == 0#64)) hbSetFull ws hbSetElem_spec
        (fun b hb => by rw [BitVec.getLsbD_allOnes, decide_eq_true hb]) (fun _ _ _ => rfl)
        (fun _ _ _ _ => rfl) hpos hlen
    refine ⟨_, c₂ || ws.getD (last / 64) 0#64 == 0#64, ?_, hl, hbits, fun m h1 h2 h3 => ?_⟩
    · simp only [hpos, or_63_add_one, hget₁, hrun₁, hrun₂, hget₃, hrun₃, if_true,
        bind_eq_bind, bind_some]
    · rw [Bool.or_eq_true, hch, beq_iff_eq, beq_iff_eq]
      rcases eq_or_ne m (start / 64) with rfl | hm
      · exact .inl (.inl h3)
      rcases eq_or_ne m (last / 64) with rfl | hm'
      · exact .inr h3
      · exact .inl (.inr ⟨m, by omega, by omega, beq_iff_eq.2 h3⟩)
  · have heq : last / 64 = start / 64 := by omega
    obtain ⟨e, hget, hrun, -, hbits⟩ := onePiece ws hbSetElem_spec heq hle hlen
    refine ⟨ws.set (last / 64) e, ws.getD (last / 64) 0#64 == 0#64, ?_, by simp, hbits,
      fun m h1 h2 h3 => ?_⟩
    · simp only [hpos, hget, hrun, if_false, bind_eq_bind, bind_some, Bool.false_or]
    · rwa [beq_iff_eq, show last / 64 = m by omega]

/-! ## Resetting -/

theorem hbResetElem_spec (elem : Word) (start last : ℕ) (h : last / 64 = start / 64)
    (hle : start ≤ last) : ∃ elem' : Word,
      hbResetElem elem start last = some (elem', elem != 0#64 && elem' == 0#64) ∧
      ∀ b < 64, elem'.getLsbD b =
        if start % 64 ≤ b ∧ b ≤ last % 64 then false else elem.getLsbD b := by
  refine ⟨_, if_pos ⟨h, hle⟩, fun b hb => ?_⟩
  rw [BitVec.getLsbD_and, BitVec.getLsbD_not,
    getLsbD_rangeMask (by omega) (Nat.mod_lt _ (by decide))]
  split_ifs with hin <;> simp [hb, hin]

/-- A word is zero after its bits are cleared, unless it is reported as it was. -/
theorem bne_blanked {ws ws' : List Word} {n : ℕ}
    (hbits : ∀ j, bitAt ws' j = if start ≤ j ∧ j ≤ last then false else bitAt ws j) :
    (ws'.getD n 0#64 != 0#64) = if ws.getD n 0#64 != 0#64 && ws'.getD n 0#64 == 0#64 then false
      else ws.getD n 0#64 != 0#64 := by
  have hsub : ws.getD n 0#64 = 0#64 → ws'.getD n 0#64 = 0#64 := fun h =>
    getD_eq_zero_iff.2 fun j hj => by
      rw [hbits, getD_eq_zero_iff.1 h j hj, ite_self]
  by_cases h : ws.getD n 0#64 = 0#64
  · rw [hsub h, h]
    rfl
  · rw [bne_iff_ne.2 h, Bool.true_and, bne]
    cases ws'.getD n 0#64 == 0#64 <;> rfl

/-- One level of `hbitmap_reset` : the partial words at both ends and the words between. -/
theorem hbResetLevel_spec {ws} (hle : start ≤ last) (hlen : last / 64 < ws.length) :
    ∃ ws' changed pos lastpos, hbResetLevel ws start last = some (ws', changed, pos, lastpos) ∧
      LevelDone false ws start last ws' changed pos lastpos := by
  unfold hbResetLevel
  by_cases hpos : start / 64 < last / 64
  · obtain ⟨e₁, ws₂, c₂, e₃, hget₁, hrun₁, hrun₂, hget₃, hrun₃, hl, hfirst, hlast, hbits, hch⟩ :=
      threePieces (w := 0#64) (p := (· != 0#64)) hbResetFull ws hbResetElem_spec (by simp)
        (fun _ _ _ => rfl) (fun _ _ _ _ => rfl) hpos hlen
    generalize hb₁ : (ws.getD (start / 64) 0#64 != 0#64 && e₁ == 0#64) = b₁ at *
    generalize hb₃ : (ws.getD (last / 64) 0#64 != 0#64 && e₃ == 0#64) = b₃ at *
    refine ⟨_, c₂ || b₃, if b₁ then start / 64 else start / 64 + 1,
      if b₃ then last / 64 else last / 64 - 1, ?_, hl, hbits, fun hc => ?_, fun n => ?_⟩
    · simp only [hpos, or_63_add_one, hget₁, hrun₁, hrun₂, hget₃, hrun₃, if_true,
        bind_eq_bind, bind_some]
    · rw [Bool.or_eq_true, hch] at hc
      have hsome : b₁ = true ∨ b₃ = true ∨ start / 64 + 1 ≤ last / 64 - 1 := by
        rcases hc with (h | ⟨m, h1, h2, -⟩) | h
        · exact .inl h
        · exact .inr (.inr (by omega))
        · exact .inr (.inl h)
      cases b₁ <;> cases b₃ <;> simp at hsome ⊢ <;> omega
    · rcases eq_or_ne n (start / 64) with rfl | hs
      · rw [bne_blanked hbits, hfirst, hb₁]
        refine if_congr ⟨fun h => ?_, fun h => ?_⟩ rfl rfl
        · rw [hch.2 (.inl h), if_pos h]
          exact ⟨rfl, le_rfl, by split_ifs <;> omega⟩
        · by_contra hno
          rw [if_neg hno] at h
          omega
      rcases eq_or_ne n (last / 64) with rfl | hl'
      · rw [bne_blanked hbits, hlast, hb₃]
        refine if_congr ⟨fun h => ?_, fun h => ?_⟩ rfl rfl
        · rw [h, if_pos rfl]
          exact ⟨Bool.or_true _, by split_ifs <;> omega, le_rfl⟩
        · by_contra hno
          rw [if_neg hno] at h
          omega
      by_cases hn : start / 64 < n ∧ n < last / 64
      · rw [getD_eq_zero_iff.2 fun j hj => (hbits j).trans (if_pos (by omega)), bne_self_eq_false]
        by_cases hc : (c₂ || b₃) = true
        · rw [if_pos ⟨hc, by split_ifs <;> omega, by split_ifs <;> omega⟩]
        · rw [if_neg fun h => hc h.1]
          by_contra hne
          refine hc ?_
          rw [hch.2 (.inr ⟨n, hn.1, hn.2, Bool.eq_true_of_not_eq_false (Ne.symm hne)⟩),
            Bool.true_or]
      · rw [if_neg (by split_ifs <;> omega),
          getD_ext fun j hj => (hbits j).trans (if_neg (by omega))]
  · have heq : last / 64 = start / 64 := by omega
    obtain ⟨e, hget, hrun, hself, hbits⟩ := onePiece ws hbResetElem_spec heq hle hlen
    rw [heq] at hget hrun hself hbits
    generalize hb : (ws.getD (start / 64) 0#64 != 0#64 && e == 0#64) = blanked at *
    refine ⟨ws.set (start / 64) e, blanked, start / 64,
      if blanked then last / 64 else last / 64 - 1, ?_, by simp, hbits, fun hc => ?_, fun n => ?_⟩
    · simp only [hpos, hget, hrun, if_false, bind_eq_bind, bind_some, Bool.false_or]
    · rw [if_pos hc, heq]
      exact ⟨le_rfl, le_rfl, le_rfl⟩
    · rcases eq_or_ne n (start / 64) with rfl | hn
      · rw [bne_blanked hbits, hself, hb]
        refine if_congr ⟨fun h => ⟨h, le_rfl, ?_⟩, fun h => h.1⟩ rfl rfl
        rw [if_pos h, heq]
      · rw [getD_set_ne hn, if_neg (by split_ifs <;> omega)]

end QemuArm
