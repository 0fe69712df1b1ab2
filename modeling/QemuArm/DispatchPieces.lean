import QemuArm.Dispatch

/-!
# Splitting a section into pieces

`mem_add` enters a section in up to three pieces : the bytes before the first page boundary,
the whole pages, and the bytes after the last boundary. `splitSection` is that list of pieces
and `memAdd_eq` says that `mem_add` registers them one after the other. The pieces cover the
bytes of the section and no others, and map them to the same offsets of the region
(`mem_splitSection`, `exists_mem_splitSection`, `pairwise_splitSection`).
-/

namespace QemuArm

open List Int128 PhysSection Nat

/-! ## Page arithmetic -/

namespace TargetPage

variable (t : TargetPage)

theorem size_pos : 0 < t.size := by
  unfold size
  positivity

theorem size_le : t.size ≤ 2 ^ 16 := Nat.pow_le_pow_right two_pos t.le

theorem size_lt : t.size < 2 ^ 64 := t.size_le.trans_lt (by norm_num)

theorem size_dvd : t.size ∣ 2 ^ 64 := pow_dvd_pow 2 (t.le.trans (by norm_num))

theorem toNat_not_mask : (~~~t.mask).toNat = t.size - 1 := by
  have h := t.size_lt
  rw [mask, BitVec.not_not, BitVec.toNat_ofNat, mod_eq_of_lt (by omega)]

theorem toNat_and_not_mask (x : Hwaddr) : (x &&& ~~~t.mask).toNat = x.toNat % t.size := by
  rw [BitVec.toNat_and, toNat_not_mask, size, and_two_pow_sub_one_eq_mod]

theorem toNat_and_mask (x : Hwaddr) : (x &&& t.mask).toNat = x.toNat / t.size * t.size := by
  have hdisj : (x &&& t.mask) &&& (x &&& ~~~t.mask) = 0 := by
    ext i hi
    simp
    tauto
  have hor : (x &&& t.mask) ||| (x &&& ~~~t.mask) = x := by
    rw [← BitVec.and_or_distrib_left, BitVec.or_not_self, BitVec.and_allOnes]
  have hsum : (x &&& t.mask).toNat + (x &&& ~~~t.mask).toNat = x.toNat := by
    rw [← BitVec.toNat_add_of_and_eq_zero hdisj, BitVec.add_eq_or_of_and_eq_zero _ _ hdisj, hor]
  rw [toNat_and_not_mask] at hsum
  have hdiv := div_add_mod' x.toNat t.size
  omega

theorem toNat_shiftRight (x : Hwaddr) : (x >>> t.bits).toNat = x.toNat / t.size := by
  rw [BitVec.toNat_ushiftRight, shiftRight_eq_div_pow, size]

/-- The bytes up to the next page boundary, which may be the end of the address space. -/
theorem toNat_align_sub (x : Hwaddr) (hx : x.toNat % t.size ≠ 0) :
    (t.align x - x).toNat = t.size - x.toNat % t.size := by
  have hpos := t.size_pos
  have hmod := mod_lt x.toNat hpos
  obtain ⟨m, hm⟩ := t.size_dvd
  have hx' := div_add_mod x.toNat t.size
  have hsum : (x + BitVec.ofNat 64 t.size - 1).toNat = (x.toNat + t.size - 1) % 2 ^ 64 := by
    simp
    omega
  rw [align, BitVec.toNat_sub, toNat_and_mask, hsum]
  obtain ⟨q, hq⟩ := @exists_eq _ (x.toNat / t.size)
  obtain ⟨o, ho⟩ := @exists_eq _ (x.toNat % t.size)
  rw [← hq] at hx'
  have hqm : q + 1 ≤ m := by
    by_contra h
    have : t.size * m ≤ t.size * q := mul_le_mul_left _ (by omega)
    omega
  have hsucc : t.size * (q + 1) = t.size * q + t.size := mul_succ _ _
  rcases hqm.lt_or_eq with h | h
  · have hlast : t.size * (q + 1) + t.size ≤ 2 ^ 64 := by
      rw [hm]
      exact mul_le_mul_left _ h
    have hdiv : (x.toNat + t.size - 1) / t.size = q + 1 := by
      rw [show x.toNat + t.size - 1 = t.size * (q + 1) + (o - 1) by omega, mul_add_div hpos,
        div_eq_of_lt (by omega)]
    rw [mod_eq_of_lt (show x.toNat + t.size - 1 < 2 ^ 64 by omega), hdiv, mul_comm]
    omega
  · rw [← h] at hm
    rw [div_eq_of_lt (by omega)]
    omega

end TargetPage

/-! ## Sizes -/

namespace Int128

variable {n m : ℕ}

theorem inRange_natCast (h : n ≤ 2 ^ 64) : InRange n := by
  unfold InRange
  omega

theorem ofInt_natCast_inj (hn : n ≤ 2 ^ 64) (hm : m ≤ 2 ^ 64) : ofInt n = ofInt m ↔ n = m := by
  rw [ofInt_inj (inRange_natCast hn) (inRange_natCast hm), Nat.cast_inj]

theorem get64_ofInt_natCast (h : n < 2 ^ 64) : get64 (ofInt n) = some (BitVec.ofNat 64 n) := by
  rw [get64_ofInt (inRange_natCast h.le), if_pos ⟨by omega, by exact_mod_cast h⟩,
    BitVec.ofInt_natCast]

theorem ofInt_natCast_of_lt (h : n < 2 ^ 64) : ofInt n = ⟨BitVec.ofNat 64 n, 0⟩ := by
  unfold ofInt
  rw [show (n : ℤ) / 2 ^ 64 = 0 by omega]
  rfl

theorem sub_ofInt_natCast (h : m ≤ n) : sub (ofInt n) (ofInt m) = ofInt (n - m : ℕ) := by
  rw [sub_ofInt, cast_sub h]

theorem ge_ofInt_natCast (hn : n ≤ 2 ^ 64) (hm : m ≤ 2 ^ 64) :
    ge (ofInt n) (ofInt m) = decide (m ≤ n) := by
  rw [ge_ofInt (inRange_natCast hn) (inRange_natCast hm)]
  simp

theorem min_ofInt_natCast (hn : n ≤ 2 ^ 64) (hm : m ≤ 2 ^ 64) :
    AddressArith.min (ofInt n) (ofInt m) = ofInt (min n m : ℕ) := by
  have hle : AddressArith.le (ofInt n) (ofInt m) = decide (n ≤ m) := ge_ofInt_natCast hm hn
  rw [AddressArith.min, hle]
  by_cases h : n ≤ m
  · rw [if_pos (decide_eq_true h), min_eq_left h]
  · rw [if_neg (by simpa using h), min_eq_right (by omega)]

end Int128

variable (t : TargetPage)

theorem TargetPage.make64_size : make64 (BitVec.ofNat 64 t.size) = ofInt t.size := by
  rw [ofInt_natCast_of_lt t.size_lt]
  rfl

variable {n : ℕ}

/-- Rounding a size down to whole pages. -/
theorem TargetPage.and_neg_size (hn : n ≤ 2 ^ 64) :
    (ofInt n).and (make64 (BitVec.ofNat 64 t.size)).neg =
      ofInt (n / t.size * t.size : ℕ) := by
  have hpos := t.size_pos
  have hlt := t.size_lt
  have hmask : t.mask.toNat = 2 ^ 64 - t.size := by
    rw [TargetPage.mask, BitVec.toNat_not, BitVec.toNat_ofNat]
    omega
  have hneg : -BitVec.ofNat 64 t.size = t.mask := by
    refine BitVec.eq_of_toNat_eq ?_
    rw [hmask, BitVec.toNat_neg, BitVec.toNat_ofNat, mod_eq_of_lt hlt, mod_eq_of_lt (by omega)]
  have hne : t.mask ≠ 0 := fun h => by
    rw [h] at hmask
    simp at hmask
    omega
  have hhi : ~~~(0 : BitVec 64) + 0 = BitVec.allOnes 64 := by decide
  unfold Int128.and Int128.neg Int128.make64
  simp only [hneg, if_neg hne, hhi, BitVec.and_allOnes]
  rcases hn.lt_or_eq with h | rfl
  · rw [ofInt_natCast_of_lt h,
      ofInt_natCast_of_lt ((div_mul_le_self n t.size).trans_lt h)]
    refine Int128.ext (BitVec.eq_of_toNat_eq ?_) rfl
    show (BitVec.ofNat 64 n &&& t.mask).toNat = _
    rw [t.toNat_and_mask, BitVec.toNat_ofNat, mod_eq_of_lt h, BitVec.toNat_ofNat,
      mod_eq_of_lt ((div_mul_le_self n t.size).trans_lt h)]
  · rw [Nat.div_mul_cancel t.size_dvd]
    refine Int128.ext ?_ rfl
    show BitVec.ofInt 64 ((2 ^ 64 : ℕ) : ℤ) &&& t.mask = BitVec.ofInt 64 ((2 ^ 64 : ℕ) : ℤ)
    rw [show BitVec.ofInt 64 ((2 ^ 64 : ℕ) : ℤ) = 0#64 by decide, BitVec.zero_and]

theorem TargetPage.rshift_bits (hn : n ≤ 2 ^ 64) :
    (ofInt n).rshift t.bits = ofInt (n / t.size : ℕ) := by
  have hpos := t.pos
  have hle := t.le
  have hdiv : n / t.size < 2 ^ 64 := by
    refine (Nat.div_le_div_right hn).trans_lt (Nat.div_lt_self (by norm_num) ?_)
    exact Nat.one_lt_two_pow (by omega)
  unfold rshift
  rw [if_neg hpos.ne', if_neg (by omega)]
  rcases hn.lt_or_eq with h | rfl
  · rw [ofInt_natCast_of_lt h, ofInt_natCast_of_lt hdiv]
    refine Int128.ext (BitVec.eq_of_toNat_eq ?_) (by simp)
    have hmod : n % 18446744073709551616 = n := mod_eq_of_lt h
    have hmod' : n / 2 ^ t.bits % 18446744073709551616 = n / 2 ^ t.bits := mod_eq_of_lt hdiv
    simp [shiftRight_eq_div_pow, TargetPage.size, hmod, hmod']
  · have hpow : (2 : ℕ) ^ 64 / t.size = 2 ^ (64 - t.bits) :=
      Nat.pow_div (by omega) two_pos
    have hall : ∀ b < 17, 0 < b →
        (0#64 >>> b ||| 1#64 <<< (64 - b)) = BitVec.ofNat 64 (2 ^ (64 - b)) ∧
          (1#64).sshiftRight (b % 64) = 0#64 := by decide
    rw [ofInt_natCast_of_lt hdiv, hpow]
    exact Int128.ext (hall t.bits (by omega) hpos).1 (hall t.bits (by omega) hpos).2

/-! ## Pieces -/

namespace PhysSection

variable (s : PhysSection)

/-- The first byte. -/
def first : ℕ := s.offsetWithinAddressSpace.toNat

/-- The number of bytes. -/
def len : ℕ := s.size.toInt.toNat

def Contains (a : ℕ) : Prop := s.first ≤ a ∧ a < s.first + s.len

/-- A section is not empty and ends inside the address space. -/
structure Proper (s : PhysSection) : Prop where
  pos : 0 < s.len
  le : s.first + s.len ≤ 2 ^ 64

/-- The `n` bytes of the section from its byte `k` on. -/
def cut (k n : ℕ) : PhysSection :=
  { s with
    offsetWithinRegion := s.offsetWithinRegion + BitVec.ofNat 64 k
    size := Int128.ofInt n
    offsetWithinAddressSpace := s.offsetWithinAddressSpace + BitVec.ofNat 64 k }

theorem Proper.size_eq {s : PhysSection} (h : s.Proper) : s.size = ofInt s.len := by
  have hpos := h.pos
  unfold len at hpos ⊢
  rw [Int.toNat_of_nonneg (by omega), ofInt_toInt]

@[simp] theorem len_cut (k : ℕ) (h : n ≤ 2 ^ 64) : (s.cut k n).len = n := by
  rw [len, cut, toInt_ofInt (inRange_natCast h)]
  exact Int.toNat_natCast n

theorem first_cut {k} (n : ℕ) (h : s.first + k < 2 ^ 64) : (s.cut k n).first = s.first + k := by
  unfold first at h ⊢
  rw [cut, BitVec.toNat_add, BitVec.toNat_ofNat]
  rw [mod_eq_of_lt (show k < 2 ^ 64 by omega), mod_eq_of_lt h]

theorem cut_cut (k n k' n' : ℕ) : (s.cut k n).cut k' n' = s.cut (k + k') n' := by
  simp only [cut, BitVec.ofNat_add, add_assoc]

theorem cut_zero {s : PhysSection} (h : s.Proper) : s.cut 0 s.len = s := by
  unfold cut
  rw [← h.size_eq]
  simp

end PhysSection

/-- A part of a section that is registered in one call : of whole pages, with
`register_multipage`, or inside one page, with `register_subpage`. -/
structure Piece where
  sec : PhysSection
  whole : Bool

def registerPiece (d : AddressSpaceDispatch) (p : Piece) :
    Except DispatchError AddressSpaceDispatch :=
  if p.whole then registerMultipage t d p.sec else registerSubpage t d p.sec

/-- The pieces of a section that starts at a page boundary. -/
def alignedPieces (s : PhysSection) : List Piece :=
  (if s.len < t.size then [] else [⟨s.cut 0 (s.len / t.size * t.size), true⟩]) ++
    if s.len % t.size = 0 then []
    else [⟨s.cut (s.len / t.size * t.size) (s.len % t.size), false⟩]

/-- The pieces of a section. -/
def splitSection (s : PhysSection) : List Piece :=
  if s.first % t.size = 0 then alignedPieces t s
  else
    let left := min (t.size - s.first % t.size) s.len
    ⟨s.cut 0 left, false⟩ :: alignedPieces t (s.cut left (s.len - left))

section

variable {t : TargetPage} {d : AddressSpaceDispatch} {s : PhysSection}

theorem PhysSection.Proper.cut (hs : s.Proper) {k} (hn : 0 < n) (hk : k + n ≤ s.len) :
    (s.cut k n).Proper := by
  have hle := hs.le
  refine ⟨?_, ?_⟩
  · rwa [s.len_cut k (by omega)]
  · rw [s.first_cut n (by omega), s.len_cut k (by omega)]
    omega

theorem memAddLoop_done (t : TargetPage) (rounds : ℕ) (d : AddressSpaceDispatch)
    (hs : s.Proper) : memAddLoop t rounds d s (ofInt s.len) = .ok d := by
  unfold memAddLoop
  rw [if_pos hs.size_eq]

theorem memAddPiece_eq {m} (hsize : m.size = ofInt m.len)
    (hlen : m.len ≤ 2 ^ 64) (hal : m.first % t.size = 0) :
    memAddPiece t d m =
      if m.len < t.size then registerSubpage t d m >>= fun d => .ok (d, ofInt m.len)
      else registerMultipage t d (m.cut 0 (m.len / t.size * t.size)) >>= fun d =>
        .ok (d, ofInt (m.len / t.size * t.size : ℕ)) := by
  have hmask : m.offsetWithinAddressSpace &&& ~~~t.mask = 0 := by
    refine BitVec.eq_of_toNat_eq ?_
    rw [t.toNat_and_not_mask]
    exact hal
  have hcut : m.cut 0 (m.len / t.size * t.size) =
      { m with size := ofInt (m.len / t.size * t.size : ℕ) } := by
    simp [cut]
  have hge : (ofInt m.len).ge (make64 (BitVec.ofNat 64 t.size)) = decide (t.size ≤ m.len) := by
    rw [t.make64_size, ge_ofInt_natCast hlen t.size_lt.le]
  unfold memAddPiece
  dsimp only
  rw [hsize, hge, t.and_neg_size hlen, hcut]
  by_cases h : m.len < t.size
  · rw [if_pos (by simpa using h), if_pos h]
    rfl
  · rw [if_neg (by simpa using h), if_neg (not_not.2 hmask), if_neg h]
    rfl

/-- One round of the loop. -/
theorem memAddLoop_round (hs : s.Proper) {w : ℕ} (hw : w < s.len) (rounds : ℕ) :
    memAddLoop t (rounds + 1) d s (ofInt w) =
      memAddPiece t d (s.cut w (s.len - w)) >>= fun r =>
        memAddLoop t rounds r.1 (s.cut w (s.len - w)) r.2 := by
  have hle := hs.le
  have hremain : ({ s with
      size := s.size.sub (ofInt w)
      offsetWithinAddressSpace := s.offsetWithinAddressSpace + BitVec.ofNat 64 w
      offsetWithinRegion := s.offsetWithinRegion + BitVec.ofNat 64 w } : PhysSection) =
        s.cut w (s.len - w) := by
    rw [cut, hs.size_eq, sub_ofInt_natCast hw.le]
  have hne : s.size ≠ ofInt w := by
    rw [hs.size_eq, Ne, ofInt_natCast_inj (by omega) (by omega)]
    omega
  rw [memAddLoop, if_neg hne, get64_ofInt_natCast (by omega), orFail_some, except_ok_bind]
  simp only [hremain]

/-- The loop registers the whole pages and then the rest. -/
theorem memAddLoop_eq (hs : s.Proper) {w : ℕ} (hw : w ≤ s.len)
    (hal : w < s.len → (s.first + w) % t.size = 0) :
    memAddLoop t 2 d s (ofInt w) =
      (alignedPieces t (s.cut w (s.len - w))).foldlM (registerPiece t) d := by
  have hpos := t.size_pos
  have hle := hs.le
  rcases hw.lt_or_eq with hlt | rfl
  · rw [memAddLoop_round hs hlt 1]
    obtain ⟨m, hm⟩ := @exists_eq _ (s.cut w (s.len - w))
    have hlen : m.len = s.len - w := by rw [hm, s.len_cut w (by omega)]
    have hmp : m.Proper := hm ▸ hs.cut (by omega) (by omega)
    have hfirst : m.first % t.size = 0 := by rw [hm, s.first_cut _ (by omega), hal hlt]
    rw [← hm, memAddPiece_eq hmp.size_eq (by omega) hfirst, alignedPieces]
    by_cases h1 : m.len < t.size
    · rw [if_pos h1, if_pos h1, mod_eq_of_lt h1, if_neg hmp.pos.ne', div_eq_of_lt h1,
        zero_mul, cut_zero hmp]
      simp only [bind_assoc, except_ok_bind, memAddLoop_done t 1 _ hmp]
      rfl
    · have hdiv := div_add_mod' m.len t.size
      rw [if_neg h1, if_neg h1]
      by_cases h2 : m.len % t.size = 0
      · have hb : m.len / t.size * t.size = m.len := by omega
        simp only [if_pos h2, hb, bind_assoc, except_ok_bind, memAddLoop_done t 1 _ hmp]
        rfl
      · have hb : m.len / t.size * t.size < m.len := by omega
        have hrest : m.len - m.len / t.size * t.size = m.len % t.size := by omega
        have hrp := hmp.cut (pos_of_ne_zero h2)
          (show m.len / t.size * t.size + m.len % t.size ≤ m.len by omega)
        have hrl := m.len_cut (m.len / t.size * t.size) (show m.len % t.size ≤ 2 ^ 64 by omega)
        have hrf : (m.cut (m.len / t.size * t.size) (m.len % t.size)).first % t.size = 0 := by
          rw [m.first_cut _ (by have := hmp.le; omega), add_mul_mod_self_right, hfirst]
        have hdone : ∀ d, memAddLoop t 0 d (m.cut (m.len / t.size * t.size) (m.len % t.size))
            (ofInt (m.len % t.size : ℕ)) = .ok d := by
          intro d
          have := memAddLoop_done t 0 d hrp
          rwa [hrl] at this
        have hround : ∀ d, memAddLoop t 1 d m (ofInt (m.len / t.size * t.size : ℕ)) =
            registerSubpage t d (m.cut (m.len / t.size * t.size) (m.len % t.size)) >>=
              fun d => .ok d := by
          intro d
          rw [memAddLoop_round hmp hb 0, hrest, memAddPiece_eq hrp.size_eq (by omega) hrf, hrl,
            if_pos (mod_lt _ hpos)]
          simp only [bind_assoc, except_ok_bind, hdone]
        simp only [if_neg h2, bind_assoc, except_ok_bind, hround]
        rfl
  · rw [memAddLoop_done t 2 d hs, alignedPieces, Nat.sub_self, s.len_cut _ (by omega),
      if_pos hpos, zero_mod]
    rfl

/-- `mem_add` registers the pieces of the section. -/
theorem memAdd_eq {sec : MemoryRegionSection} (hs : sec.toPhys.Proper) :
    memAdd t d sec = (splitSection t sec.toPhys).foldlM (registerPiece t) d := by
  have hle := hs.le
  have hpos := hs.pos
  unfold memAdd splitSection
  dsimp only
  obtain ⟨s, hsec⟩ := @exists_eq _ sec.toPhys
  rw [← hsec] at hs hle hpos ⊢
  have hmask : s.offsetWithinAddressSpace &&& ~~~t.mask ≠ 0 ↔ s.first % t.size ≠ 0 := by
    rw [Ne, ← BitVec.toNat_inj, t.toNat_and_not_mask]
    rfl
  by_cases hal : s.first % t.size = 0
  · rw [if_neg (by rw [hmask]; exact not_not.2 hal), if_pos hal]
    have := @memAddLoop_eq t d s hs 0 (zero_le _) (fun _ => hal)
    rw [Nat.sub_zero, cut_zero hs] at this
    exact this
  · have hleft : (t.align s.offsetWithinAddressSpace - s.offsetWithinAddressSpace).toNat =
        t.size - s.first % t.size := t.toNat_align_sub _ hal
    have hmin : AddressArith.min (make64
        (t.align s.offsetWithinAddressSpace - s.offsetWithinAddressSpace)) s.size =
        ofInt (min (t.size - s.first % t.size) s.len : ℕ) := by
      rw [← ofInt_make64, hleft, hs.size_eq, min_ofInt_natCast (by omega) (by omega)]
    rw [if_pos (hmask.2 hal), if_neg hal, hmin]
    obtain ⟨w, hw⟩ := @exists_eq _ (min (t.size - s.first % t.size) s.len)
    rw [← hw]
    have hcut : { s with size := ofInt w } = s.cut 0 w := by
      simp [cut]
    have hmod := mod_lt s.first t.size_pos
    have hdiv := div_add_mod s.first t.size
    have hloop : ∀ d, memAddLoop t 2 d s (ofInt w) =
        (alignedPieces t (s.cut w (s.len - w))).foldlM (registerPiece t) d := fun d =>
      memAddLoop_eq hs (by omega) fun hlt => by
        have : s.first + w = t.size * (s.first / t.size + 1) := by
          rw [mul_succ]
          omega
        rw [this, mul_mod_right]
    simp only [hcut, hloop]
    rfl

/-! ## What the pieces are -/

/-- A piece as the two registration functions expect it. -/
structure Piece.OK (t : TargetPage) (p : Piece) : Prop where
  proper : p.sec.Proper
  region : ∃ mr, p.sec.mr = .region mr
  aligned : p.whole = true → p.sec.first % t.size = 0 ∧ p.sec.len % t.size = 0
  inside : p.whole = false → p.sec.first % t.size + p.sec.len ≤ t.size

/-- A not empty part of the section. -/
def PhysSection.PartOf (s' s : PhysSection) : Prop :=
  ∃ k n, s' = s.cut k n ∧ 0 < n ∧ k + n ≤ s.len

theorem PhysSection.Proper.contains_cut (hs : s.Proper) {k} (hn : 0 < n) (hk : k + n ≤ s.len)
    {a} : (s.cut k n).Contains a ↔ s.first + k ≤ a ∧ a < s.first + k + n := by
  have hle := hs.le
  rw [Contains, s.first_cut n (by omega), s.len_cut k (by omega)]

theorem PhysSection.PartOf.trans {s₁ s₂ : PhysSection} (h : s₂.PartOf s₁) (h₁ : s₁.PartOf s)
    (hs : s.Proper) : s₂.PartOf s := by
  obtain ⟨k, n, rfl, hn, hk⟩ := h
  obtain ⟨k₁, n₁, rfl, hn₁, hk₁⟩ := h₁
  have hle := hs.le
  rw [s.len_cut k₁ (by omega)] at hk
  exact ⟨k₁ + k, n, s.cut_cut _ _ _ _, hn, by omega⟩

theorem PhysSection.PartOf.contains {s' : PhysSection} (h : s'.PartOf s) (hs : s.Proper) {a : ℕ}
    (ha : s'.Contains a) : s.Contains a := by
  obtain ⟨k, n, rfl, hn, hk⟩ := h
  rw [hs.contains_cut hn hk] at ha
  exact ⟨by omega, by omega⟩

theorem mem_alignedPieces (hs : s.Proper) (hmr : ∃ mr, s.mr = .region mr)
    (hal : s.first % t.size = 0) {p} (hp : p ∈ alignedPieces t s) : p.OK t ∧ p.sec.PartOf s := by
  have hpos := t.size_pos
  have hle := hs.le
  have hdiv := div_add_mod' s.len t.size
  rcases mem_append.1 hp with h | h
  · split_ifs at h with h1
    · exact absurd h not_mem_nil
    · rw [mem_singleton.1 h]
      have hb : 0 < s.len / t.size * t.size :=
        mul_pos (div_pos (by omega) hpos) hpos
      refine ⟨⟨hs.cut hb (by omega), hmr, fun _ => ?_, fun h => absurd h (by simp)⟩, 0, _, rfl, hb,
        by omega⟩
      rw [s.first_cut _ (by omega), s.len_cut 0 (by omega)]
      exact ⟨hal, mul_mod_left _ _⟩
  · split_ifs at h with h1
    · exact absurd h not_mem_nil
    · rw [mem_singleton.1 h]
      have hlt := mod_lt s.len hpos
      refine ⟨⟨hs.cut (pos_of_ne_zero h1) (by omega), hmr, fun h => absurd h (by simp),
        fun _ => ?_⟩, _, _, rfl, pos_of_ne_zero h1, by omega⟩
      rw [s.first_cut _ (by omega), s.len_cut _ (by omega), add_mul_mod_self_right]
      omega

theorem exists_mem_alignedPieces (hs : s.Proper) {a} (ha : s.Contains a) :
    ∃ p ∈ alignedPieces t s, p.sec.Contains a := by
  have hdiv := div_add_mod' s.len t.size
  obtain ⟨h1, h2⟩ := ha
  unfold alignedPieces
  by_cases hb : a < s.first + s.len / t.size * t.size
  · have hlt : ¬s.len < t.size := fun h => by
      rw [div_eq_of_lt h] at hb
      omega
    rw [if_neg hlt]
    refine ⟨_, mem_append_left _ (mem_singleton_self _), ?_⟩
    exact (hs.contains_cut (by omega) (by omega)).2 ⟨by omega, by omega⟩
  · have hmod : s.len % t.size ≠ 0 := by omega
    rw [if_neg hmod]
    refine ⟨_, mem_append_right _ (mem_singleton_self _), ?_⟩
    exact (hs.contains_cut (by omega) (by omega)).2 ⟨by omega, by omega⟩

/-- The bytes of the pieces come one after the other. -/
def Piece.Before (p p' : Piece) : Prop := p.sec.first + p.sec.len ≤ p'.sec.first

theorem pairwise_alignedPieces (hs : s.Proper) : (alignedPieces t s).Pairwise Piece.Before := by
  have hle := hs.le
  have hdiv := div_add_mod' s.len t.size
  unfold alignedPieces
  split_ifs with h1 h2 h2
  · exact Pairwise.nil
  · exact pairwise_singleton _ _
  · exact pairwise_singleton _ _
  · refine pairwise_pair.2 ?_
    rw [Piece.Before, s.first_cut _ (by omega), s.len_cut 0 (by omega), s.first_cut _ (by omega)]
    exact le_rfl

/-- The bytes before the first page boundary, and the rest. -/
theorem splitSection_cases (t : TargetPage) (hs : s.Proper) :
    s.first % t.size = 0 ∧ splitSection t s = alignedPieces t s ∨
    (s.first % t.size + s.len ≤ t.size ∧ splitSection t s = [⟨s, false⟩]) ∨
    ∃ left, left < s.len ∧ s.first % t.size + left = t.size ∧ 0 < left ∧
      (s.cut left (s.len - left)).first % t.size = 0 ∧
      splitSection t s = ⟨s.cut 0 left, false⟩ :: alignedPieces t (s.cut left (s.len - left)) := by
  have hpos := t.size_pos
  have hmod := mod_lt s.first hpos
  unfold splitSection
  split_ifs with h
  · exact .inl ⟨h, rfl⟩
  · rcases le_or_gt s.len (t.size - s.first % t.size) with hle | hgt
    · refine .inr (.inl ⟨by omega, ?_⟩)
      dsimp only
      rw [min_eq_right hle, cut_zero hs, Nat.sub_self, alignedPieces,
        s.len_cut _ (zero_le _), if_pos hpos, zero_mod]
      rfl
    · refine .inr (.inr ⟨t.size - s.first % t.size, hgt, by omega, by omega, ?_, ?_⟩)
      · have hdiv := div_add_mod s.first t.size
        have hend := hs.le
        rw [s.first_cut _ (by omega), show s.first + (t.size - s.first % t.size) =
          t.size * (s.first / t.size + 1) by rw [mul_succ]; omega, mul_mod_right]
      · rw [min_eq_left hgt.le]

theorem mem_splitSection (hs : s.Proper) (hmr : ∃ mr, s.mr = .region mr) {p : Piece}
    (hp : p ∈ splitSection t s) : p.OK t ∧ p.sec.PartOf s := by
  have hle := hs.le
  rcases splitSection_cases t hs with ⟨hal, h⟩ | ⟨hin, h⟩ | ⟨left, hlt, hsum, hpos, hal, h⟩
  · exact mem_alignedPieces hs hmr hal (h ▸ hp)
  · rw [h] at hp
    rw [mem_singleton.1 hp]
    exact ⟨⟨hs, hmr, fun h => absurd h (by simp), fun _ => hin⟩, 0, s.len,
      (cut_zero hs).symm, hs.pos, by omega⟩
  · rw [h] at hp
    rcases mem_cons.1 hp with rfl | hp
    · refine ⟨⟨hs.cut hpos (by omega), hmr, fun h => absurd h (by simp), fun _ => ?_⟩, 0, left, rfl,
        hpos, by omega⟩
      rw [s.first_cut _ (by omega), s.len_cut 0 (by omega)]
      exact hsum.le
    · have hpart : (s.cut left (s.len - left)).PartOf s :=
        ⟨left, _, rfl, by omega, by omega⟩
      obtain ⟨hok, hp'⟩ := mem_alignedPieces (hs.cut (by omega) (by omega)) hmr hal hp
      exact ⟨hok, hp'.trans hpart hs⟩

theorem exists_mem_splitSection (hs : s.Proper) {a} (ha : s.Contains a) :
    ∃ p ∈ splitSection t s, p.sec.Contains a := by
  rcases splitSection_cases t hs with ⟨hal, h⟩ | ⟨hin, h⟩ | ⟨left, hlt, hsum, hpos, hal, h⟩
  · rw [h]
    exact exists_mem_alignedPieces hs ha
  · rw [h]
    exact ⟨_, mem_singleton_self _, ha⟩
  · obtain ⟨h1, h2⟩ := ha
    rw [h]
    by_cases hl : a < s.first + left
    · exact ⟨_, mem_cons_self, (hs.contains_cut hpos (by omega)).2 ⟨by omega, by omega⟩⟩
    · obtain ⟨p, hp, hpa⟩ := @exists_mem_alignedPieces t _
        (hs.cut (show 0 < s.len - left by omega) (show left + (s.len - left) ≤ s.len by omega)) a
        ((hs.contains_cut (by omega) (by omega)).2 ⟨by omega, by omega⟩)
      exact ⟨p, mem_cons_of_mem _ hp, hpa⟩

theorem pairwise_splitSection (hs : s.Proper) (hmr : ∃ mr, s.mr = .region mr) :
    (splitSection t s).Pairwise Piece.Before := by
  have hle := hs.le
  rcases splitSection_cases t hs with ⟨hal, h⟩ | ⟨hin, h⟩ | ⟨left, hlt, hsum, hpos, hal, h⟩
  · rw [h]
    exact pairwise_alignedPieces hs
  · rw [h]
    exact pairwise_singleton _ _
  · rw [h]
    have hrest : (s.cut left (s.len - left)).Proper := hs.cut (by omega) (by omega)
    refine pairwise_cons.2 ⟨fun p hp => ?_, pairwise_alignedPieces hrest⟩
    obtain ⟨k, n, hsec, hn, hk⟩ := (mem_alignedPieces hrest hmr hal hp).2
    rw [s.len_cut left (by omega)] at hk
    rw [Piece.Before, hsec, s.cut_cut, s.first_cut _ (by omega), s.len_cut 0 (by omega),
      s.first_cut _ (by omega)]
    omega

end

end QemuArm
