import Mathlib

/-!
# Xor based zero run length encoding

`xbzrleEncodeBuffer` and `xbzrleDecodeBuffer` as `xbzrle.c` computes them, on lists of bytes : the
encoder alternates between the lengths of the runs on which the old and the new buffer agree and
the bytes of the runs on which they differ, and looks at eight bytes at a time where it can.

The word tests of the encoder find exactly the ends of the maximal runs (`zrunLen_isRun`,
`nzrunLen_isRun`). Hence a buffer that is reported as unchanged is unchanged
(`eq_of_xbzrleEncodeBuffer_nil`), and decoding a delta over the old buffer gives the new one
(`xbzrleDecodeBuffer_encode`).
-/

namespace QemuArm

open List BitVec Option Nat

abbrev Byte := BitVec 8

/-! ## Words of eight bytes -/

/-- The `long` at the start of a little-endian buffer. -/
def loadLong : List Byte → BitVec 64
  | b₀ :: b₁ :: b₂ :: b₃ :: b₄ :: b₅ :: b₆ :: b₇ :: _ =>
    b₇ ++ b₆ ++ b₅ ++ b₄ ++ b₃ ++ b₂ ++ b₁ ++ b₀
  | _ => 0

/-- The bits of `t` at which subtracting `m` from `x` turns a clear bit into a set one. -/
def borrowBits {w : ℕ} (m t x : BitVec w) : BitVec w :=
  (x - m) &&& ~~~x &&& t

/-- The test `(xor - mask) & ~xor & (mask << 7)` : some byte of `xor` is zero. -/
def hasZeroByte (xor : BitVec 64) : Bool :=
  borrowBits 0x0101010101010101#64 (0x0101010101010101#64 <<< 7) xor != 0

variable {w : ℕ}

theorem toNat_append_byte (hi : BitVec w) (lo : Byte) :
    (hi ++ lo).toNat = 256 * hi.toNat + lo.toNat := by
  rw [toNat_append, Nat.shiftLeft_eq, mul_comm, ← Nat.two_pow_add_eq_or_of_lt lo.isLt hi.toNat]

theorem append_byte_inj {hi hi' : BitVec w} {lo lo' : Byte} :
    hi ++ lo = hi' ++ lo' ↔ hi = hi' ∧ lo = lo' := by
  constructor
  · intro h
    have h' := congrArg BitVec.toNat h
    rw [toNat_append_byte, toNat_append_byte] at h'
    exact ⟨eq_of_toNat_eq (by omega), eq_of_toNat_eq (by omega)⟩
  · rintro ⟨rfl, rfl⟩
    rfl

variable {n : ℕ}

theorem mul_add_mod_mul {q r} (hr : r < 256) : (256 * q + r) % (256 * n) = 256 * (q % n) + r := by
  rw [mod_mul, mul_add_mod, mod_eq_of_lt hr, mul_add_div (by decide),
    div_eq_of_lt hr, add_zero, add_comm]

/-- Subtracting one from the low byte; only a zero byte borrows from the bytes above it. -/
theorem exists_sub_append_one (hi m : BitVec w) (lo : Byte) :
    ∃ c : BitVec w, (hi ++ lo) - (m ++ 1#8) = c ++ (lo - 1#8) ∧ (lo ≠ 0 → c = hi - m) := by
  have h1 : (1#8).toNat = 1 := rfl
  have hpow : 2 ^ (w + 8) = 256 * 2 ^ w := by rw [pow_add]; omega
  by_cases hlo : lo = 0
  · refine ⟨BitVec.ofNat w (2 ^ w - m.toNat - 1 + hi.toNat), ?_, fun h => absurd hlo h⟩
    subst hlo
    apply eq_of_toNat_eq
    have h0 : (0 : Byte).toNat = 0 := rfl
    have h255 : ((0 : Byte) - 1#8).toNat = 255 := rfl
    rw [toNat_sub, toNat_append_byte, toNat_append_byte, toNat_append_byte, h0, h1, toNat_ofNat,
      hpow, ← mul_add_mod_mul (by decide)]
    congr 1
    omega
  · refine ⟨hi - m, ?_, fun _ => rfl⟩
    have hpos : lo.toNat ≠ 0 := fun h0 => hlo (eq_of_toNat_eq h0)
    have hsub : (lo - 1#8).toNat = lo.toNat - 1 := by
      rw [toNat_sub]
      omega
    apply eq_of_toNat_eq
    rw [toNat_sub, toNat_append_byte, toNat_append_byte, toNat_append_byte, toNat_sub, h1, hpow,
      ← mul_add_mod_mul (by omega)]
    congr 1
    omega

theorem borrowBits_byte : ∀ b : Byte, borrowBits 1#8 0x80#8 b = 0 ↔ b ≠ 0 := by
  decide

/-- The lowest zero byte sets its top bit, and nonzero bytes below it set none. -/
theorem borrowBits_append (hi m t : BitVec w) (lo : Byte) :
    borrowBits (m ++ 1#8) (t ++ 0x80#8) (hi ++ lo) = 0 ↔ borrowBits m t hi = 0 ∧ lo ≠ 0 := by
  obtain ⟨c, hc, hkeep⟩ := exists_sub_append_one hi m lo
  have happ : borrowBits (m ++ 1#8) (t ++ 0x80#8) (hi ++ lo) =
      (c &&& ~~~hi &&& t) ++ borrowBits 1#8 0x80#8 lo := by
    unfold borrowBits
    rw [hc, not_append, and_append, and_append]
  have h0 : (0 : BitVec (w + 8)) = 0#w ++ 0#8 := by simp
  rw [happ, h0, append_byte_inj]
  constructor
  · rintro ⟨hhi, hlo⟩
    have hne := (borrowBits_byte lo).mp hlo
    rw [hkeep hne] at hhi
    exact ⟨hhi, hne⟩
  · rintro ⟨hhi, hne⟩
    rw [hkeep hne]
    exact ⟨hhi, (borrowBits_byte lo).mpr hne⟩

theorem hasZeroByte_append {b₀ b₁ b₂ b₃ b₄ b₅ b₆ b₇ : Byte} :
    hasZeroByte (b₇ ++ b₆ ++ b₅ ++ b₄ ++ b₃ ++ b₂ ++ b₁ ++ b₀) = false ↔
      b₀ ≠ 0 ∧ b₁ ≠ 0 ∧ b₂ ≠ 0 ∧ b₃ ≠ 0 ∧ b₄ ≠ 0 ∧ b₅ ≠ 0 ∧ b₆ ≠ 0 ∧ b₇ ≠ 0 := by
  have hm : 0x0101010101010101#64 = 1#8 ++ 1#8 ++ 1#8 ++ 1#8 ++ 1#8 ++ 1#8 ++ 1#8 ++ 1#8 := rfl
  have ht : 0x0101010101010101#64 <<< 7 =
      0x80#8 ++ 0x80#8 ++ 0x80#8 ++ 0x80#8 ++ 0x80#8 ++ 0x80#8 ++ 0x80#8 ++ 0x80#8 := rfl
  unfold hasZeroByte
  rw [ht, hm, bne_eq_false_iff_eq]
  iterate 7 rw [borrowBits_append]
  rw [borrowBits_byte]
  tauto

theorem exists_cons_eight {l : List Byte} (h : 8 ≤ l.length) :
    ∃ b₀ b₁ b₂ b₃ b₄ b₅ b₆ b₇ t, l = b₀ :: b₁ :: b₂ :: b₃ :: b₄ :: b₅ :: b₆ :: b₇ :: t := by
  rcases l with _ | ⟨b₀, _ | ⟨b₁, _ | ⟨b₂, _ | ⟨b₃, _ | ⟨b₄, _ | ⟨b₅, _ | ⟨b₆, _ | ⟨b₇, t⟩⟩⟩⟩⟩⟩⟩⟩
  all_goals first
    | exact ⟨b₀, b₁, b₂, b₃, b₄, b₅, b₆, b₇, t, rfl⟩
    | exact absurd h (by simp)

/-- Eight indices, one after the other. -/
theorem forall_lt_eight {P : ℕ → Prop} :
    (∀ k < 8, P k) ↔ P 0 ∧ P 1 ∧ P 2 ∧ P 3 ∧ P 4 ∧ P 5 ∧ P 6 ∧ P 7 := by
  constructor
  · intro h
    exact ⟨h 0 (by omega), h 1 (by omega), h 2 (by omega), h 3 (by omega), h 4 (by omega),
      h 5 (by omega), h 6 (by omega), h 7 (by omega)⟩
  · rintro ⟨h0, h1, h2, h3, h4, h5, h6, h7⟩ k hk
    interval_cases k <;> assumption

/-! ## Runs of equal and of unequal bytes -/

/-- The buffers agree at `k`, or they do not. -/
def AgreeIs (same : Bool) (old new : List Byte) (k : ℕ) : Prop :=
  decide (old[k]? = new[k]?) = same

variable {same : Bool} {old new : List Byte}

theorem agreeIs_drop {m k} :
    AgreeIs same (old.drop m) (new.drop m) k ↔ AgreeIs same old new (m + k) := by
  simp [AgreeIs, getElem?_drop]

theorem loadLong_eq_iff (ho : 8 ≤ old.length) (hn : 8 ≤ new.length) :
    loadLong old = loadLong new ↔ ∀ k < 8, AgreeIs true old new k := by
  obtain ⟨a₀, a₁, a₂, a₃, a₄, a₅, a₆, a₇, o, rfl⟩ := exists_cons_eight ho
  obtain ⟨b₀, b₁, b₂, b₃, b₄, b₅, b₆, b₇, n, rfl⟩ := exists_cons_eight hn
  rw [forall_lt_eight]
  simp only [loadLong, append_byte_inj, AgreeIs, decide_eq_true_eq, getElem?_cons_succ,
    getElem?_cons_zero, some.injEq]
  tauto

theorem hasZeroByte_xor_eq_false (ho : 8 ≤ old.length) (hn : 8 ≤ new.length) :
    hasZeroByte (loadLong old ^^^ loadLong new) = false ↔ ∀ k < 8, AgreeIs false old new k := by
  obtain ⟨a₀, a₁, a₂, a₃, a₄, a₅, a₆, a₇, o, rfl⟩ := exists_cons_eight ho
  obtain ⟨b₀, b₁, b₂, b₃, b₄, b₅, b₆, b₇, n, rfl⟩ := exists_cons_eight hn
  rw [forall_lt_eight]
  unfold loadLong
  iterate 7 rw [xor_append]
  rw [hasZeroByte_append]
  simp [AgreeIs]

/-- `r` is the length of the longest run of positions with `P` among the first `n`. -/
structure IsRun (P : ℕ → Prop) (n r : ℕ) : Prop where
  le : r ≤ n
  run : ∀ k < r, P k
  stop : r < n → ¬P r

/-- What holds at the first `m` positions and at those behind them. -/
theorem agree_append {m r} (hpre : ∀ k < m, AgreeIs same old new k)
    (h : ∀ k < r, AgreeIs same (old.drop m) (new.drop m) k) :
    ∀ k < m + r, AgreeIs same old new k := by
  intro k hk
  by_cases hkm : k < m
  · exact hpre k hkm
  · have hrun := agreeIs_drop.mp (h (k - m) (by omega))
    rwa [show m + (k - m) = k by omega] at hrun

/-- A run goes on behind its first `m` positions. -/
theorem IsRun.append {m r} (hm : m ≤ n) (hpre : ∀ k < m, AgreeIs same old new k)
    (h : IsRun (AgreeIs same (old.drop m) (new.drop m)) (n - m) r) :
    IsRun (AgreeIs same old new) n (m + r) := by
  have hle := h.le
  exact ⟨by omega, agree_append hpre h.run, fun hlt hat => h.stop (by omega) (agreeIs_drop.mpr hat)⟩

/-- The loops that go byte by byte, for at most `limit` bytes : `old[i] == new[i]` for the runs
of equal bytes, `old[i] != new[i]` for the others. -/
def byteRun (same : Bool) : ℕ → List Byte → List Byte → ℕ
  | limit + 1, a :: old, b :: new =>
    if decide (a = b) = same then byteRun same limit old new + 1 else 0
  | _, _, _ => 0

theorem byteRun_isRun (same : Bool) : ∀ (limit : ℕ) old new,
    old.length = new.length → limit ≤ old.length →
      IsRun (AgreeIs same old new) limit (byteRun same limit old new)
  | 0, _, _, _, _ => ⟨by simp [byteRun], by simp [byteRun], by simp [byteRun]⟩
  | limit + 1, [], _, _, hle => absurd hle (by simp)
  | limit + 1, _ :: _, [], hlen, _ => absurd hlen (by simp)
  | limit + 1, a :: old, b :: new, hlen, hle => by
    have hlen' : old.length = new.length := by simpa using hlen
    have ih := byteRun_isRun same limit old new hlen' (by simpa using hle)
    have hzero : AgreeIs same (a :: old) (b :: new) 0 ↔ decide (a = b) = same := by
      simp [AgreeIs]
    unfold byteRun
    split_ifs with hab
    · rw [add_comm (byteRun same limit old new) 1]
      refine IsRun.append (by omega) (fun k hk => ?_) ih
      rw [show k = 0 by omega]
      exact hzero.mpr hab
    · exact ⟨by omega, by omega, fun _ h => hab (hzero.mp h)⟩

/-- Eight equal bytes at a time. -/
def zrunWords : ℕ → List Byte → List Byte → ℕ
  | 0, _, _ => 0
  | fuel + 1, old, new =>
    if old ≠ [] ∧ loadLong old = loadLong new then
      8 + zrunWords fuel (old.drop 8) (new.drop 8)
    else 0

/-- Eight unequal bytes at a time; the last word of the run byte by byte. -/
def nzrunWords : ℕ → List Byte → List Byte → ℕ
  | 0, _, _ => 0
  | fuel + 1, old, new =>
    if old = [] then 0
    else if hasZeroByte (loadLong old ^^^ loadLong new) then byteRun false old.length old new
    else 8 + nzrunWords fuel (old.drop 8) (new.drop 8)

/-- The length of a run of equal bytes, as `xbzrle_encode_buffer` finds it : the bytes up to a
word boundary, whole words, and the rest. -/
def zrunLen (old new : List Byte) : ℕ :=
  let res := old.length % 8
  let head := byteRun true res old new
  if head = res then
    let words := zrunWords old.length (old.drop head) (new.drop head)
    let i := head + words
    i + byteRun true (old.length - i) (old.drop i) (new.drop i)
  else head

/-- The length of a run of unequal bytes. -/
def nzrunLen (old new : List Byte) : ℕ :=
  let res := old.length % 8
  let head := byteRun false res old new
  if head = res then head + nzrunWords old.length (old.drop head) (new.drop head)
  else head

theorem eight_le_of_ne_nil (hmod : old.length % 8 = 0) (hne : old ≠ []) : 8 ≤ old.length := by
  have hpos := length_pos_iff.mpr hne
  omega

theorem zrunWords_spec : ∀ (fuel : ℕ) old new, old.length = new.length →
    old.length % 8 = 0 → zrunWords fuel old new ≤ old.length ∧
      ∀ k < zrunWords fuel old new, AgreeIs true old new k
  | 0, _, _, _, _ => by simp [zrunWords]
  | fuel + 1, old, new, hlen, hmod => by
    unfold zrunWords
    split
    · rename_i h
      have h8 := eight_le_of_ne_nil hmod h.1
      have hword := (loadLong_eq_iff h8 (by omega)).mp h.2
      obtain ⟨hle, hrun⟩ := zrunWords_spec fuel (old.drop 8) (new.drop 8)
        (by simp [hlen]) (by rw [length_drop]; omega)
      rw [length_drop] at hle
      exact ⟨by omega, agree_append hword hrun⟩
    · simp

theorem nzrunWords_isRun : ∀ (fuel : ℕ) old new, old.length = new.length →
    old.length % 8 = 0 → old.length ≤ fuel →
      IsRun (AgreeIs false old new) old.length (nzrunWords fuel old new)
  | 0, old, _, _, _, hf => by
    exact ⟨by simp [nzrunWords], by simp [nzrunWords], by omega⟩
  | fuel + 1, old, new, hlen, hmod, hf => by
    unfold nzrunWords
    split
    · rename_i h
      subst h
      exact ⟨le_refl _, by omega, by simp⟩
    · rename_i hne
      have h8 := eight_le_of_ne_nil hmod hne
      split
      · exact byteRun_isRun false old.length old new hlen (le_refl _)
      · rename_i hz
        have hword := (hasZeroByte_xor_eq_false h8 (by omega : 8 ≤ new.length)).mp
          (by simpa using hz)
        have ih := nzrunWords_isRun fuel (old.drop 8) (new.drop 8) (by simp [hlen])
          (by rw [length_drop]; omega) (by rw [length_drop]; omega)
        rw [length_drop] at ih
        exact IsRun.append h8 hword ih

/-- A run that ends before a word boundary is found byte by byte. -/
theorem isRun_of_head {rest} (hlen : old.length = new.length)
    (h : byteRun same (old.length % 8) old new = old.length % 8 →
      (∀ k < old.length % 8, AgreeIs same old new k) →
        IsRun (AgreeIs same old new) old.length rest) :
    IsRun (AgreeIs same old new) old.length
      (if byteRun same (old.length % 8) old new = old.length % 8 then rest
        else byteRun same (old.length % 8) old new) := by
  have hhead := byteRun_isRun same (old.length % 8) old new hlen (mod_le _ _)
  have hle := hhead.le
  split
  · rename_i heq
    exact h heq fun k hk => hhead.run k (by omega)
  · exact ⟨by omega, hhead.run, fun _ => hhead.stop (by omega)⟩

theorem zrunLen_isRun (hlen : old.length = new.length) :
    IsRun (AgreeIs true old new) old.length (zrunLen old new) := by
  refine isRun_of_head hlen fun heq hrun => ?_
  rw [heq]
  obtain ⟨hwle, hwrun⟩ := zrunWords_spec old.length (old.drop (old.length % 8))
    (new.drop (old.length % 8)) (by simp [hlen]) (by rw [length_drop]; omega)
  rw [length_drop] at hwle
  exact IsRun.append (by omega) (agree_append hrun hwrun)
    (byteRun_isRun true _ _ _ (by simp [hlen]) (by rw [length_drop]))

theorem nzrunLen_isRun (hlen : old.length = new.length) :
    IsRun (AgreeIs false old new) old.length (nzrunLen old new) := by
  refine isRun_of_head hlen fun heq hrun => ?_
  rw [heq]
  have ih := nzrunWords_isRun old.length (old.drop (old.length % 8)) (new.drop (old.length % 8))
    (by simp [hlen]) (by rw [length_drop]; omega) (by rw [length_drop]; omega)
  rw [length_drop] at ih
  exact IsRun.append (mod_le _ _) hrun ih

/-! ## Lengths in one or two bytes -/

/-- `uleb128_encode_small`; none where its assertion fails. -/
def uleb128EncodeSmall (n : ℕ) : Option (List Byte) :=
  if 0x3fff < n then none
  else if n < 0x80 then some [BitVec.ofNat 8 n]
  else some [BitVec.ofNat 8 ((n &&& 0x7f) ||| 0x80), BitVec.ofNat 8 (n >>> 7)]

/-- `uleb128_decode_small` : the number and how many bytes it took. -/
def uleb128DecodeSmall : List Byte → Option (ℕ × ℕ)
  | [] => none
  | b :: bs =>
    if b &&& 0x80#8 = 0 then some (b.toNat, 1)
    else match bs with
      | [] => none
      | c :: _ =>
        if c &&& 0x80#8 = 0 then some ((b &&& 0x7f#8).toNat ||| c.toNat <<< 7, 2) else none

theorem exists_uleb128EncodeSmall (h : n ≤ 0x3fff) : ∃ bs, uleb128EncodeSmall n = some bs := by
  unfold uleb128EncodeSmall
  rw [if_neg (by omega)]
  split <;> exact ⟨_, rfl⟩

variable {bs : List Byte}

section

variable (h : uleb128EncodeSmall n = some bs)
include h

theorem length_of_uleb128EncodeSmall : 0 < bs.length ∧ bs.length ≤ 2 := by
  unfold uleb128EncodeSmall at h
  split at h
  · cases h
  · split at h <;> (cases h; simp)

theorem uleb128DecodeSmall_encode (rest : List Byte) :
    uleb128DecodeSmall (bs ++ rest) = some (n, bs.length) := by
  unfold uleb128EncodeSmall at h
  split at h
  · cases h
  · split at h
    · rename_i hlt
      cases h
      have hn : BitVec.ofNat 8 n &&& 0x80#8 = 0 := by
        have hall : ∀ m < 0x80, BitVec.ofNat 8 m &&& 0x80#8 = 0 := by decide
        exact hall n hlt
      simp only [List.cons_append, uleb128DecodeSmall, if_pos hn, toNat_ofNat,
        length_singleton]
      rw [mod_eq_of_lt (by omega)]
    · cases h
      have hm : n &&& 0x7f = n % 2 ^ 7 := and_two_pow_sub_one_eq_mod n 7
      have hq : n >>> 7 = n / 2 ^ 7 := shiftRight_eq_div_pow n 7
      have hlow : ∀ m < 0x80, BitVec.ofNat 8 (m ||| 0x80) &&& 0x80#8 ≠ 0 ∧
          (BitVec.ofNat 8 (m ||| 0x80) &&& 0x7f#8).toNat = m := by decide
      have hhigh : ∀ m < 0x80, BitVec.ofNat 8 m &&& 0x80#8 = 0 ∧
          (BitVec.ofNat 8 m).toNat = m := by decide
      obtain ⟨hb, hbn⟩ := hlow (n % 2 ^ 7) (by omega)
      obtain ⟨hc, hcn⟩ := hhigh (n / 2 ^ 7) (by omega)
      rw [hm, hq]
      simp only [List.cons_append, uleb128DecodeSmall, if_neg hb, if_pos hc, hbn, hcn]
      rw [Nat.or_comm, ← Nat.shiftLeft_add_eq_or_of_lt (Nat.mod_lt n (by decide)),
        Nat.shiftLeft_eq, Nat.div_add_mod']
      rfl

end

/-! ## The encoder -/

/-- What `xbzrle_encode_buffer` comes to, with the bytes that it has written to `dst` : a failed
assertion, −1, or the number of bytes. -/
inductive EncodeResult where
  | abort (dst : List Byte)
  | overflow (dst : List Byte)
  | done (dst : List Byte)
  deriving DecidableEq, Repr

/-- The loop of `xbzrle_encode_buffer` at the rest of the buffers, with the bytes that `dst` has
so far. -/
def xbzrleEncodeLoop (slen : ℕ) (dlen : ℤ) : ℕ → List Byte → List Byte → List Byte → EncodeResult
  | 0, _, _, dst => .abort dst
  | fuel + 1, old, new, dst =>
    if old = [] then .done dst
    else if dlen < dst.length + 2 then .overflow dst
    else
      let zrun := zrunLen old new
      if zrun = slen then .done []
      else if zrun = old.length then .done dst
      else match uleb128EncodeSmall zrun with
        | none => .abort dst
        | some zbytes =>
          let dst := dst ++ zbytes
          if dlen < dst.length + 2 then .overflow dst
          else
            let nzrun := nzrunLen (old.drop zrun) (new.drop zrun)
            match uleb128EncodeSmall nzrun with
            | none => .abort dst
            | some nzbytes =>
              let dst := dst ++ nzbytes
              if dlen < dst.length + nzrun then .overflow dst
              else
                xbzrleEncodeLoop slen dlen fuel (old.drop (zrun + nzrun))
                  (new.drop (zrun + nzrun)) (dst ++ (new.drop zrun).take nzrun)

/-- `xbzrle_encode_buffer`, for buffers that start at a word boundary. -/
def xbzrleEncodeBuffer (old new : List Byte) (dlen : ℤ) : EncodeResult :=
  if old.length % 8 ≠ 0 then .abort []
  else xbzrleEncodeLoop old.length dlen (old.length + 1) old new []

/-- The bytes written, from the start of `dst`. -/
def EncodeResult.written : EncodeResult → List Byte
  | abort dst => dst
  | overflow dst => dst
  | done dst => dst

/-- The number that `xbzrle_encode_buffer` returns. -/
def EncodeResult.ret : EncodeResult → Option ℤ
  | abort _ => none
  | overflow _ => some (-1)
  | done dst => some dst.length

/-- The loop of `xbzrle_decode_buffer` at the rest of the source and of the destination : the
destination's bytes from here on, or none for −1. -/
def xbzrleDecodeLoop : ℕ → Bool → List Byte → List Byte → Option (List Byte)
  | 0, _, _, _ => none
  | fuel + 1, first, src, dst =>
    if src = [] then some dst
    else if src.length < 2 then none
    else do
      let (zrun, zlen) ← uleb128DecodeSmall src
      if ¬first ∧ zrun = 0 then none
      else
        let src := src.drop zlen
        if dst.length < zrun then none
        else if src.length < 2 then none
        else do
          let (nzrun, nzlen) ← uleb128DecodeSmall src
          if nzrun = 0 then none
          else
            let src := src.drop nzlen
            if dst.length < zrun + nzrun ∨ src.length < nzrun then none
            else do
              let rest ← xbzrleDecodeLoop fuel false (src.drop nzrun) (dst.drop (zrun + nzrun))
              some (dst.take zrun ++ src.take nzrun ++ rest)

def xbzrleDecodeBuffer (src dst : List Byte) : Option (List Byte) :=
  xbzrleDecodeLoop (src.length + 1) true src dst

/-! ## Decoding what was encoded -/

theorem take_eq_of_agree (h : ∀ k < n, AgreeIs true old new k) : old.take n = new.take n := by
  apply ext_getElem?
  intro k
  by_cases hk : k < n
  · have hat := h k hk
    rw [AgreeIs, decide_eq_true_eq] at hat
    rw [getElem?_take_of_lt hk, getElem?_take_of_lt hk, hat]
  · rw [getElem?_take_eq_none (by omega), getElem?_take_eq_none (by omega)]

theorem eq_of_isRun_length (hlen : old.length = new.length)
    (h : IsRun (AgreeIs true old new) old.length old.length) : old = new := by
  have htake := take_eq_of_agree h.run
  rwa [take_length, hlen, take_length] at htake

theorem pos_of_agreeIs {r} (h : IsRun (AgreeIs same old new) n r) (hn : 0 < n)
    (h0 : AgreeIs same old new 0) : 0 < r := by
  rcases Nat.eq_zero_or_pos r with rfl | hr
  · exact absurd h0 (h.stop hn)
  · exact hr

theorem not_agreeIs {k} : ¬AgreeIs same old new k ↔ AgreeIs (!same) old new k := by
  unfold AgreeIs
  cases same <;> simp

/-- One round of the decoder, over the bytes that one round of the encoder puts out. -/
theorem xbzrleDecodeLoop_chunk {fuel zrun nzrun first
    zbytes nzbytes lit src dst} (hz : uleb128EncodeSmall zrun = some zbytes)
    (hn : uleb128EncodeSmall nzrun = some nzbytes) (hfirst : first = false → 0 < zrun)
    (hpos : 0 < nzrun) (hlit : lit.length = nzrun) (hdst : zrun + nzrun ≤ dst.length) :
    xbzrleDecodeLoop (fuel + 1) first (zbytes ++ (nzbytes ++ (lit ++ src))) dst =
      (xbzrleDecodeLoop fuel false src (dst.drop (zrun + nzrun))).map
        fun rest => dst.take zrun ++ lit ++ rest := by
  have hn0 := length_of_uleb128EncodeSmall hn
  have hsrc : ¬(zbytes ++ (nzbytes ++ (lit ++ src))).length < 2 := by
    simp only [length_append]
    omega
  have hsrc' : ¬(nzbytes ++ (lit ++ src)).length < 2 := by
    simp only [length_append]
    omega
  have hne : zbytes ++ (nzbytes ++ (lit ++ src)) ≠ [] := by
    intro h
    rw [h] at hsrc
    simp at hsrc
  have hzok : ¬(¬first = true ∧ zrun = 0) := by
    rintro ⟨hf, h0⟩
    have := hfirst (by simpa using hf)
    omega
  conv_lhs => unfold xbzrleDecodeLoop
  rw [if_neg hne, if_neg hsrc, uleb128DecodeSmall_encode hz]
  simp only [bind_eq_bind, bind_some, if_neg hzok, drop_left,
    if_neg (show ¬dst.length < zrun by omega), if_neg hsrc', uleb128DecodeSmall_encode hn,
    if_neg (show ¬nzrun = 0 by omega)]
  rw [if_neg (by simp only [length_append]; omega), drop_left' hlit, take_left' hlit, map_eq_bind]
  rfl

/-- What the encoder puts out from here on decodes to the rest of the new buffer. -/
theorem xbzrleEncodeLoop_decode (slen : ℕ) (dlen : ℤ) : ∀ (fuel : ℕ) old new dst out
    (first : Bool), old.length = new.length → (old.length < slen ∨ old.length = slen ∧ dst = []) →
    (first = false → old ≠ [] → AgreeIs true old new 0) →
    xbzrleEncodeLoop slen dlen fuel old new dst = .done out →
      ∃ chunk, out = dst ++ chunk ∧
        ∀ f, chunk.length < f → xbzrleDecodeLoop f first chunk old = some new
  | 0, _, _, _, _, _, _, _, _, h => by cases h
  | fuel + 1, old, new, dst, out, first, hlen, hdst, hfirst, h => by
    have hsame : old = new → ∃ chunk, dst = dst ++ chunk ∧
        ∀ f, chunk.length < f → xbzrleDecodeLoop f first chunk old = some new := by
      rintro rfl
      refine ⟨[], by simp, fun f hf => ?_⟩
      obtain ⟨f', rfl⟩ := Nat.exists_eq_add_of_lt hf
      rfl
    unfold xbzrleEncodeLoop at h
    split at h
    · rename_i hold
      cases h
      subst hold
      exact hsame (length_eq_zero_iff.mp hlen.symm).symm
    · rename_i hold
      split at h
      · cases h
      dsimp only at h
      have hz := zrunLen_isRun hlen
      obtain ⟨z, hzdef⟩ : ∃ z, z = zrunLen old new := ⟨_, rfl⟩
      rw [← hzdef] at h hz
      have hzle := hz.le
      split at h
      · cases h
        have hzlen : z = old.length := by omega
        rw [hzlen] at hz
        rw [← (hdst.resolve_left (by omega)).2]
        exact hsame (eq_of_isRun_length hlen hz)
      · split at h
        · rename_i hzlen
          cases h
          rw [hzlen] at hz
          exact hsame (eq_of_isRun_length hlen hz)
        · split at h
          · cases h
          rename_i zbytes hzb
          split at h
          · cases h
          have hn := nzrunLen_isRun (show (old.drop z).length = (new.drop z).length by simp [hlen])
          obtain ⟨n, hndef⟩ := @exists_eq _ (nzrunLen (old.drop z) (new.drop z))
          rw [← hndef] at h hn
          have hnle := hn.le
          rw [length_drop] at hn hnle
          split at h
          · cases h
          rename_i nzbytes hnb
          split at h
          · cases h
          have hzstop := not_agreeIs.mp (hz.stop (by omega))
          have hnpos : 0 < n :=
            pos_of_agreeIs hn (by omega) (agreeIs_drop.mpr (by simpa using hzstop))
          have hzpos : first = false → 0 < z := by
            intro hf
            exact pos_of_agreeIs hz (by omega) (hfirst hf hold)
          -- The run of unequal bytes is maximal, so that the next round starts with equal ones.
          have hnext : false = false → old.drop (z + n) ≠ [] →
              AgreeIs true (old.drop (z + n)) (new.drop (z + n)) 0 := by
            intro _ hne
            have hlt : z + n < old.length := by
              by_contra hge
              exact hne (drop_eq_nil_of_le (by omega))
            have hstop := not_agreeIs.mp (hn.stop (by omega))
            rw [agreeIs_drop] at hstop ⊢
            simpa using hstop
          obtain ⟨chunk, hout, hdec⟩ := xbzrleEncodeLoop_decode slen dlen fuel _ _ _ out false
            (by simp [hlen]) (.inl (by rw [length_drop]; omega)) hnext h
          refine ⟨zbytes ++ (nzbytes ++ ((new.drop z).take n ++ chunk)), by simp [hout], ?_⟩
          intro f hf
          obtain ⟨f', rfl⟩ := Nat.exists_eq_add_of_lt hf
          rw [xbzrleDecodeLoop_chunk hzb hnb hzpos hnpos
            (by rw [length_take, length_drop]; omega) (by omega), hdec _ ?_]
          · rw [map_some, take_eq_of_agree hz.run, ← List.drop_drop, List.append_assoc,
              take_append_drop, take_append_drop]
          · have hz0 := length_of_uleb128EncodeSmall hzb
            simp only [length_append]
            omega

variable {dlen : ℤ}

theorem xbzrleEncodeBuffer_eq (hmod : old.length % 8 = 0) :
    xbzrleEncodeBuffer old new dlen =
      xbzrleEncodeLoop old.length dlen (old.length + 1) old new [] := by
  unfold xbzrleEncodeBuffer
  rw [if_neg (by omega)]

/-- Decoding over the old buffer what the encoder put out gives the new buffer. -/
theorem xbzrleDecodeBuffer_encode {out} (hlen : old.length = new.length)
    (h : xbzrleEncodeBuffer old new dlen = .done out) : xbzrleDecodeBuffer out old = some new := by
  have hmod : old.length % 8 = 0 := by
    by_contra hne
    unfold xbzrleEncodeBuffer at h
    rw [if_pos hne] at h
    cases h
  rw [xbzrleEncodeBuffer_eq hmod] at h
  obtain ⟨chunk, rfl, hdec⟩ := xbzrleEncodeLoop_decode old.length dlen (old.length + 1) old new []
    out true hlen (.inr ⟨rfl, rfl⟩) (by simp) h
  exact hdec _ (by simp)

/-- A buffer is reported as unchanged only when it is. -/
theorem eq_of_xbzrleEncodeBuffer_nil (hlen : old.length = new.length)
    (h : xbzrleEncodeBuffer old new dlen = .done []) : old = new :=
  some.inj (xbzrleDecodeBuffer_encode hlen h)

/-- A buffer that is unchanged is reported as such. -/
theorem xbzrleEncodeBuffer_self {buf} (hmod : buf.length % 8 = 0) (hdlen : 2 ≤ dlen) :
    xbzrleEncodeBuffer buf buf dlen = .done [] := by
  rw [xbzrleEncodeBuffer_eq hmod]
  unfold xbzrleEncodeLoop
  split
  · rfl
  · have hz := zrunLen_isRun (rfl : buf.length = buf.length)
    have hzlen : zrunLen buf buf = buf.length := by
      by_contra hne
      exact hz.stop (by have := hz.le; omega) (by simp [AgreeIs])
    rw [if_neg (by simp; omega)]
    rw [if_pos hzlen]

/-! ## The room that the encoder needs -/

/-- A round that does not end the encoder writes both lengths and the run, and moves on. -/
theorem xbzrleEncodeLoop_spec (slen : ℕ) (dlen : ℤ) : ∀ (fuel : ℕ) old new dst,
    old.length = new.length → old.length ≤ 0x3fff → old.length < fuel →
    (dst.length : ℤ) ≤ max 0 dlen →
      (xbzrleEncodeLoop slen dlen fuel old new dst).ret.isSome = true ∧
        ((xbzrleEncodeLoop slen dlen fuel old new dst).written.length : ℤ) ≤ max 0 dlen
  | 0, _, _, _, _, _, hf, _ => by omega
  | fuel + 1, old, new, dst, hlen, hle, hf, hdst => by
    have hz := zrunLen_isRun hlen
    have hzle := hz.le
    have hn := nzrunLen_isRun
      (show (old.drop (zrunLen old new)).length = (new.drop (zrunLen old new)).length by
        simp [hlen])
    have hnle := hn.le
    rw [length_drop] at hn hnle
    obtain ⟨zbytes, hzb⟩ := exists_uleb128EncodeSmall (show zrunLen old new ≤ 0x3fff by omega)
    obtain ⟨nzbytes, hnb⟩ := exists_uleb128EncodeSmall
      (show nzrunLen (old.drop (zrunLen old new)) (new.drop (zrunLen old new)) ≤ 0x3fff by omega)
    have hz2 := length_of_uleb128EncodeSmall hzb
    have hn2 := length_of_uleb128EncodeSmall hnb
    unfold xbzrleEncodeLoop
    dsimp only
    rw [hzb]
    rw [hnb]
    dsimp only
    by_cases hnil : old = []
    · rw [if_pos hnil]
      exact ⟨rfl, hdst⟩
    rw [if_neg hnil]
    by_cases hroom : dlen < dst.length + 2
    · rw [if_pos hroom]
      exact ⟨rfl, hdst⟩
    rw [if_neg hroom]
    by_cases hall : zrunLen old new = slen
    · rw [if_pos hall]
      exact ⟨rfl, by simp [EncodeResult.written]⟩
    rw [if_neg hall]
    by_cases hlast : zrunLen old new = old.length
    · rw [if_pos hlast]
      exact ⟨rfl, hdst⟩
    rw [if_neg hlast]
    have hdz : ((dst ++ zbytes).length : ℤ) ≤ max 0 dlen := by
      rw [length_append]
      omega
    by_cases hroom' : dlen < (dst ++ zbytes).length + 2
    · rw [if_pos hroom']
      exact ⟨rfl, hdz⟩
    rw [if_neg hroom']
    have hdn : ((dst ++ zbytes ++ nzbytes).length : ℤ) ≤ max 0 dlen := by
      rw [length_append]
      omega
    split
    · exact ⟨rfl, hdn⟩
    · have hzstop := not_agreeIs.mp (hz.stop (by omega))
      have hnpos := pos_of_agreeIs hn (by omega) (agreeIs_drop.mpr (by simpa using hzstop))
      refine xbzrleEncodeLoop_spec slen dlen fuel _ _ _ (by simp [hlen])
        (by rw [length_drop]; omega) (by rw [length_drop]; omega) ?_
      rw [length_append, length_take]
      omega

/-- The encoder stays within `dst`, tells an unchanged buffer from a changed one, and what it
returns decodes to the new buffer. -/
theorem xbzrle_encode_decode (old new : List Byte) (dlen : ℤ) (hlen : old.length = new.length)
    (hmod : old.length % 8 = 0) (hle : old.length ≤ 0x3fff) :
    (∃ ret, (xbzrleEncodeBuffer old new dlen).ret = some ret) ∧
    (∀ k < (xbzrleEncodeBuffer old new dlen).written.length, (k : ℤ) < dlen) ∧
    (2 ≤ dlen → ((xbzrleEncodeBuffer old new dlen).ret = some 0 ↔ old = new)) ∧
    ∀ n : ℤ, 0 < n → (xbzrleEncodeBuffer old new dlen).ret = some n →
      ((xbzrleEncodeBuffer old new dlen).written.length : ℤ) = n ∧
        xbzrleDecodeBuffer (xbzrleEncodeBuffer old new dlen).written old = some new := by
  have hspec := xbzrleEncodeLoop_spec old.length dlen (old.length + 1) old new [] hlen hle
    (lt_succ_self _) (by simp)
  rw [← xbzrleEncodeBuffer_eq hmod] at hspec
  refine ⟨isSome_iff_exists.mp hspec.1, fun k hk => by have := hspec.2; omega, ?_, ?_⟩
  · intro hdlen
    constructor
    · intro h0
      cases hr : xbzrleEncodeBuffer old new dlen with
      | abort dst | overflow dst => rw [hr] at h0; cases h0
      | done dst =>
        rw [hr] at h0
        have hnil : dst = [] := List.length_eq_zero_iff.mp (by simpa [EncodeResult.ret] using h0)
        exact eq_of_xbzrleEncodeBuffer_nil hlen (hnil ▸ hr)
    · rintro rfl
      rw [xbzrleEncodeBuffer_self hmod hdlen]
      rfl
  · intro n hn hret
    cases hr : xbzrleEncodeBuffer old new dlen with
    | abort dst => rw [hr] at hret; cases hret
    | overflow dst =>
      rw [hr] at hret
      cases hret
      omega
    | done dst =>
      rw [hr] at hret
      exact ⟨some.inj hret, xbzrleDecodeBuffer_encode hlen hr⟩

/-- One changed byte in eight : a run of three equal bytes, one unequal one, and the rest. -/
theorem xbzrle_encode_decode_oneByte :
    (xbzrleEncodeBuffer [0, 1, 2, 3, 4, 5, 6, 7] [0, 1, 2, 9, 4, 5, 6, 7] 8).ret = some 3 ∧
      xbzrleDecodeBuffer (xbzrleEncodeBuffer [0, 1, 2, 3, 4, 5, 6, 7]
        [0, 1, 2, 9, 4, 5, 6, 7] 8).written [0, 1, 2, 3, 4, 5, 6, 7] =
          some [0, 1, 2, 9, 4, 5, 6, 7] := by
  have hret : (xbzrleEncodeBuffer [0, 1, 2, 3, 4, 5, 6, 7] [0, 1, 2, 9, 4, 5, 6, 7] 8).ret =
      some 3 := by decide
  exact ⟨hret, ((xbzrle_encode_decode [0, 1, 2, 3, 4, 5, 6, 7] [0, 1, 2, 9, 4, 5, 6, 7] 8 rfl rfl
    (by decide)).2.2.2 3 (by decide) hret).2⟩

end QemuArm
