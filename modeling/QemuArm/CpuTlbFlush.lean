import QemuArm.CpuTlb

/-!
# Flushes of the TLB are complete

An entry is found only for a page that was entered since the last full flush, and lies in the place
of that page (`TlbInv.slot`). The block of the large pages is empty, or an aligned block around all
of the large mappings (`TlbInv.block`). Every operation keeps both (`tlbInv_reach`), and the flush
of a page then leaves nothing that belongs to a mapping around it (`tlbFlushPage_complete`).
-/

namespace QemuArm

open Function BitVec TlbTarget TlbMapping

variable {t : TlbTarget} {s s' : CpuTlb t} {e : CpuTlbEntry t} {page addr vaddr : t.Ulong}

/-! ## Addresses and pages -/

namespace TlbTarget

theorem pageMask_eq (t : TlbTarget) : t.pageMask = prefixMask t.longBits t.pageBits :=
  not_twoPow_sub_one t.page_lt

variable {b : ℕ}

/-- A flag is not part of the page number. -/
theorem flag_and_pageMask (t : TlbTarget) (hb : b < t.pageBits) :
    twoPow t.longBits b &&& t.pageMask = 0#_ := by
  refine eq_of_getLsbD_eq fun i hi => ?_
  rw [pageMask_eq, getLsbD_and, getLsbD_twoPow, getLsbD_zero]
  by_cases hib : b = i
  · simp [← hib, hb]
  · simp [hib]

theorem flag_and_compareMask (t : TlbTarget) (hb : b < t.pageBits) (h3 : b ≠ 3) :
    twoPow t.longBits b &&& t.compareMask = 0#_ := by
  rw [compareMask, and_or_distrib_left, t.flag_and_pageMask hb, tlbInvalidMask]
  refine eq_of_getLsbD_eq fun i hi => ?_
  by_cases hib : b = i
  · simp [← hib, h3.symm]
  · simp [hib]

theorem or_flag_and_pageMask (t : TlbTarget) (hb : b < t.pageBits) (a : t.Ulong) :
    (a ||| twoPow t.longBits b) &&& t.pageMask = a &&& t.pageMask := by
  rw [and_or_distrib_right, t.flag_and_pageMask hb, or_zero]

theorem or_flag_and_compareMask (t : TlbTarget) (hb : b < t.pageBits) (h3 : b ≠ 3) (a : t.Ulong) :
    (a ||| twoPow t.longBits b) &&& t.compareMask = a &&& t.compareMask := by
  rw [and_or_distrib_right, t.flag_and_compareMask hb h3, or_zero]

theorem and_pageMask_self (a : t.Ulong) : a &&& t.pageMask &&& t.pageMask = a &&& t.pageMask := by
  rw [BitVec.and_assoc, BitVec.and_self]

/-- An entry that compares equal to a page has the number of that page. -/
theorem page_of_compare {a} (hpage : page &&& t.pageMask = page)
    (h : page = a &&& t.compareMask) : a &&& t.pageMask = page := by
  have hmask : t.compareMask &&& t.pageMask = t.pageMask := by
    rw [compareMask, BitVec.and_or_distrib_right, BitVec.and_self, tlbInvalidMask,
      t.flag_and_pageMask (by have := t.flags_lt; omega), or_zero]
  rw [← hpage, h, BitVec.and_assoc, hmask]

/-- The address `-1` compares equal to no page. -/
theorem ne_allOnes_compare (hpage : page &&& t.pageMask = page) :
    page ≠ allOnes t.longBits &&& t.compareMask := by
  intro h
  have hlt : 3 < t.longBits := by
    have := t.flags_lt
    have := t.page_lt
    omega
  have hbit : page.getLsbD 3 = false := by
    rw [← hpage, pageMask_eq, getLsbD_and]
    have : ¬t.pageBits ≤ 3 := by
      have := t.flags_lt
      omega
    simp [this]
  rw [h, getLsbD_and, compareMask, getLsbD_or, tlbInvalidMask] at hbit
  simp [hlt] at hbit

end TlbTarget

theorem tlbIndex_and_pageMask (a : t.Ulong) : tlbIndex (a &&& t.pageMask) = tlbIndex a := by
  have hself := and_pageMask_self a
  rw [pageMask_eq, and_prefixMask_eq_iff] at hself
  have hshift : (a &&& t.pageMask) >>> t.pageBits = a >>> t.pageBits := by
    apply eq_of_toNat_eq
    rw [toNat_ushiftRight, toNat_ushiftRight, Nat.shiftRight_eq_div_pow,
      Nat.shiftRight_eq_div_pow, pageMask_eq]
    exact hself
  rw [tlbIndex, Fin.mk.injEq, hshift]
  rfl

/-! ## What an entry is found for -/

variable {sec : IotlbSection} {prot : PageProt}

namespace CpuTlbEntry

theorem not_hits_invalid (hpage : page &&& t.pageMask = page) :
    ¬(CpuTlbEntry.invalid : CpuTlbEntry t).Hits page := by
  rintro (h | h | h) <;> exact ne_allOnes_compare hpage h

theorem Hits.of_flush (hpage : page &&& t.pageMask = page)
    (h : (tlbFlushEntry e addr).Hits page) : e.Hits page ∧ page ≠ addr := by
  unfold tlbFlushEntry at h
  split at h
  · exact absurd h (not_hits_invalid hpage)
  · next hmiss =>
    refine ⟨h, ?_⟩
    rintro rfl
    exact hmiss h

theorem Hits.of_resetDirty {start length}
    (h : (tlbResetDirtyRange e start length).Hits page) : e.Hits page := by
  have hmask := t.or_flag_and_compareMask (b := 4) (by have := t.flags_lt; omega) (by decide)
    e.addrWrite
  unfold tlbResetDirtyRange at h
  dsimp only at h
  split at h
  · split at h
    · rcases h with h | h | h
      · exact .inl h
      · exact .inr (.inl (h.trans hmask))
      · exact .inr (.inr h)
    · exact h
  · exact h

theorem Hits.of_setDirty1 (h : (tlbSetDirty1 e vaddr).Hits page) : e.Hits page := by
  have hmask := t.or_flag_and_compareMask (b := 4) (by have := t.flags_lt; omega) (by decide) vaddr
  unfold tlbSetDirty1 at h
  split at h
  · next hw =>
    rcases h with h | h | h
    · exact .inl h
    · refine .inr (.inl ?_)
      rw [hw, tlbNotdirty, hmask]
      exact h
    · exact .inr (.inr h)
  · exact h

/-- The entry for `vaddr` is found only for the page of `vaddr`. -/
theorem Hits.of_page {address codeAddress addend}
    (haddress : address &&& t.pageMask = vaddr &&& t.pageMask)
    (hcode : codeAddress &&& t.pageMask = vaddr &&& t.pageMask) (hpage : page &&& t.pageMask = page)
    (h : (tlbPageEntry sec vaddr prot address codeAddress addend).Hits page) :
    vaddr &&& t.pageMask = page := by
  have h6 := t.flags_lt
  have hmmio := t.or_flag_and_pageMask (b := 5) (by omega) address
  have hclean := t.or_flag_and_pageMask (b := 4) (by omega) address
  rcases h with h | h | h
  · rw [tlbPageEntry] at h
    split at h
    · exact haddress.symm.trans (page_of_compare hpage h)
    · exact absurd h (ne_allOnes_compare hpage)
  · rw [tlbPageEntry] at h
    dsimp only at h
    split at h
    · have hpg := page_of_compare hpage h
      split at hpg
      · exact haddress.symm.trans (hmmio.symm.trans hpg)
      · split at hpg
        · exact haddress.symm.trans (hclean.symm.trans hpg)
        · exact haddress.symm.trans hpg
    · exact absurd h (ne_allOnes_compare hpage)
  · rw [tlbPageEntry] at h
    dsimp only at h
    split at h
    · exact hcode.symm.trans (page_of_compare hpage h)
    · exact absurd h (ne_allOnes_compare hpage)

end CpuTlbEntry

variable {watchpoints : List (CpuWatchpoint t)} {paddr : BitVec 64}

theorem getIotlb_address_page {address} :
    (memoryRegionSectionGetIotlb watchpoints sec vaddr paddr prot address).2 &&& t.pageMask =
      address &&& t.pageMask := by
  unfold memoryRegionSectionGetIotlb
  dsimp only
  split
  · exact t.or_flag_and_pageMask (by have := t.flags_lt; omega) address
  · rfl

/-! ## The block of the large pages -/

/-- Whatever the mask, it is shifted out in the end. -/
theorem extendMask_isSome (flushAddr vaddr : t.Ulong) : ∀ fuel mask,
    mask <<< fuel = 0 → ∃ m, extendMask flushAddr vaddr (fuel + 1) mask = some m
  | 0, mask, h => by
    rw [shiftLeft_zero] at h
    refine ⟨mask, ?_⟩
    rw [extendMask, h, if_neg]
    exact fun hne => hne and_zero
  | fuel + 1, mask, h => by
    rw [extendMask]
    split
    · refine extendMask_isSome flushAddr vaddr fuel (mask <<< 1) ?_
      rw [← shiftLeft_add, add_comm 1 fuel]
      exact h
    · exact ⟨mask, rfl⟩

theorem tlbAddLargePage_isSome (s : CpuTlb t) (vaddr size : t.Ulong) :
    ∃ s', tlbAddLargePage s vaddr size = some s' := by
  unfold tlbAddLargePage
  dsimp only
  split
  · exact ⟨_, rfl⟩
  · obtain ⟨m, hm⟩ := extendMask_isSome s.tlbFlushAddr vaddr t.longBits
      (~~~(size - 1) &&& s.tlbFlushMask) (shiftLeft_eq_zero le_rfl)
    exact ⟨_, by rw [hm]; rfl⟩

/-- The loop stops at a wider block that holds both addresses. -/
theorem extendMask_prefix {flushAddr vaddr m} : ∀ fuel k,
    extendMask flushAddr vaddr fuel (prefixMask t.longBits k) = some m →
      ∃ l, k ≤ l ∧ m = prefixMask t.longBits l ∧ flushAddr &&& m = vaddr &&& m
  | 0, _, h => by cases h
  | fuel + 1, k, h => by
    rw [extendMask] at h
    split at h
    · rw [prefixMask_shiftLeft_one] at h
      obtain ⟨l, hkl, hm⟩ := extendMask_prefix fuel (k + 1) h
      exact ⟨l, by omega, hm⟩
    · next hstop =>
      cases h
      exact ⟨k, le_rfl, rfl, xor_and_eq_zero_iff.1 (not_not.1 hstop)⟩

/-- The addresses in the aligned range of a mapping. -/
def TlbMapping.Covers (m : TlbMapping t) (addr : t.Ulong) : Prop :=
  addr.toNat / m.size.toNat = m.vaddr.toNat / m.size.toNat

variable {m : TlbMapping t}

theorem TlbMapping.covers_iff {k} (hk : k < t.longBits) (hsize : m.size = twoPow t.longBits k) :
    m.Covers addr ↔ addr &&& prefixMask t.longBits k = m.vaddr &&& prefixMask t.longBits k := by
  have hnat : m.size.toNat = 2 ^ k := by
    rw [hsize, toNat_twoPow, Nat.mod_eq_of_lt (Nat.pow_lt_pow_right (by omega) hk)]
  rw [Covers, hnat, and_prefixMask_eq_iff]

/-- The address and the mask of the large pages : none were entered, or an aligned block of
`2 ^ k` that holds them all. -/
def LargeBlock (s : CpuTlb t) : Prop :=
  (s.tlbFlushAddr = allOnes _ ∧ ∀ m ∈ s.entered, m.size = t.pageSize) ∨
  ∃ k, 0 < k ∧ s.tlbFlushMask = prefixMask t.longBits k ∧
    s.tlbFlushAddr = s.tlbFlushAddr &&& s.tlbFlushMask ∧
    ∀ m ∈ s.entered, m.size ≠ t.pageSize → ∃ j ≤ k, j < t.longBits ∧
      m.size = twoPow t.longBits j ∧ m.vaddr &&& s.tlbFlushMask = s.tlbFlushAddr

theorem ne_allOnes_of_and_prefixMask {a k} (hk : 0 < k)
    (h : a = a &&& prefixMask t.longBits k) : a ≠ allOnes _ := by
  intro hones
  have hlt : 0 < t.longBits := by
    have := t.page_lt
    omega
  have hbit := congrArg (fun z => z.getLsbD 0) h
  rw [hones] at hbit
  simp [hlt, show ¬k ≤ 0 by omega] at hbit

variable {size : t.Ulong}

/-- A large page widens the block so that it holds the page too. -/
theorem LargeBlock.addLargePage {k} (h : LargeBlock s) (hpos : 0 < k) (hk : k < t.longBits)
    (hsize : size = twoPow t.longBits k) (hs : tlbAddLargePage s vaddr size = some s') :
    LargeBlock { s' with entered := ⟨vaddr, size⟩ :: s.entered } := by
  have hmask : ~~~(size - 1) = prefixMask t.longBits k := hsize ▸ not_twoPow_sub_one hk
  unfold tlbAddLargePage at hs
  rw [hmask] at hs
  split at hs
  · next hnone =>
    cases hs
    rcases h with ⟨-, hsmall⟩ | ⟨j, hj, hm, hself, -⟩
    · refine .inr ⟨k, hpos, rfl, ?_, fun m hmem hlarge => ?_⟩
      · rw [BitVec.and_assoc, BitVec.and_self]
      · rcases List.mem_cons.1 hmem with rfl | hmem
        · exact ⟨k, le_rfl, hk, hsize, rfl⟩
        · exact absurd (hsmall m hmem) hlarge
    · rw [hm] at hself
      exact absurd hnone (ne_allOnes_of_and_prefixMask hj hself)
  · next hsome =>
    obtain ⟨mask, hext, rfl⟩ := Option.map_eq_some_iff.1 hs
    rcases h with ⟨hnone, -⟩ | ⟨j, hj, hm, hself, hall⟩
    · exact absurd hnone hsome
    · rw [hm, prefixMask_and] at hext
      obtain ⟨l, hl, rfl, hagree⟩ := extendMask_prefix _ _ hext
      refine .inr ⟨l, by omega, rfl, ?_, fun m hmem hlarge => ?_⟩
      · rw [BitVec.and_assoc, BitVec.and_self]
      · rcases List.mem_cons.1 hmem with rfl | hmem
        · exact ⟨k, by omega, hk, hsize, hagree.symm⟩
        · obtain ⟨i, hij, hi, hmsize, hin⟩ := hall m hmem hlarge
          refine ⟨i, by omega, hi, hmsize, ?_⟩
          rw [hself, hm] at hin
          exact and_prefixMask_mono hin (by omega)

/-! ## The invariant -/

structure TlbInv (s : CpuTlb t) : Prop where
  slot : ∀ mmuIdx i page, page &&& t.pageMask = page → (s.tlbTable mmuIdx i).Hits page →
    tlbIndex page = i ∧ ∃ m ∈ s.entered, m.vaddr &&& t.pageMask = page
  block : LargeBlock s

theorem TlbInv.flush (s : CpuTlb t) : TlbInv (tlbFlush s) where
  slot := fun _ _ _ hpage hhit => absurd hhit (CpuTlbEntry.not_hits_invalid hpage)
  block := .inl ⟨rfl, fun _ hm => absurd hm List.not_mem_nil⟩

/-- An operation that leaves the block alone and only loses entries. -/
theorem TlbInv.mono (h : TlbInv s) (tlbTable : Fin t.nbMmuModes → Fin cpuTlbSize → CpuTlbEntry t)
    (hhit : ∀ mmuIdx i page, page &&& t.pageMask = page → (tlbTable mmuIdx i).Hits page →
      (s.tlbTable mmuIdx i).Hits page) : TlbInv { s with tlbTable := tlbTable } where
  slot := fun mmuIdx i page hpage hh => h.slot mmuIdx i page hpage (hhit mmuIdx i page hpage hh)
  block := h.block

theorem TlbInv.flushPage (h : TlbInv s) (addr : t.Ulong) : TlbInv (tlbFlushPage s addr) := by
  unfold tlbFlushPage
  split
  · exact TlbInv.flush s
  · refine h.mono _ fun mmuIdx i page hpage hhit => ?_
    split at hhit
    · exact (CpuTlbEntry.Hits.of_flush hpage hhit).1
    · exact hhit

theorem TlbInv.setDirty (h : TlbInv s) (vaddr : t.Ulong) : TlbInv (tlbSetDirty s vaddr) := by
  refine h.mono _ fun mmuIdx i page _ hhit => ?_
  split at hhit
  · exact hhit.of_setDirty1
  · exact hhit

theorem tlbAddLargePage_frame (hs : tlbAddLargePage s vaddr size = some s') :
    s'.tlbTable = s.tlbTable ∧ s'.entered = s.entered := by
  unfold tlbAddLargePage at hs
  split at hs
  · cases hs
    exact ⟨rfl, rfl⟩
  · obtain ⟨mask, -, rfl⟩ := Option.map_eq_some_iff.1 hs
    exact ⟨rfl, rfl⟩

/-- What `tlb_set_page` does when no assertion fails. -/
theorem tlbSetPage_cases {mmuIdx}
    (hs : tlbSetPage s watchpoints sec vaddr paddr prot mmuIdx size = some s') :
    ¬size < t.pageSize ∧ ∃ s₁ te, (if size ≠ t.pageSize then tlbAddLargePage s vaddr size
        else some s) = some s₁ ∧
      (∀ page, page &&& t.pageMask = page → te.Hits page → vaddr &&& t.pageMask = page) ∧
      s'.tlbTable = update s₁.tlbTable mmuIdx (update (s₁.tlbTable mmuIdx) (tlbIndex vaddr) te) ∧
      s'.tlbFlushAddr = s₁.tlbFlushAddr ∧ s'.tlbFlushMask = s₁.tlbFlushMask ∧
      s'.entered = ⟨vaddr, size⟩ :: s₁.entered := by
  unfold tlbSetPage at hs
  split at hs
  · cases hs
  next hsize =>
  refine ⟨hsize, ?_⟩
  obtain ⟨s₁, hs₁, hs⟩ := Option.bind_eq_some_iff.1 hs
  split at hs
  · cases hs
  cases hs
  have hcode : (if !sec.isRam && !sec.isRomd then vaddr ||| t.tlbMmio else vaddr) &&& t.pageMask =
      vaddr &&& t.pageMask := by
    split
    · exact t.or_flag_and_pageMask (by have := t.flags_lt; omega) vaddr
    · rfl
  exact ⟨s₁, _, hs₁, fun page hpage hhit => CpuTlbEntry.Hits.of_page
    (getIotlb_address_page.trans hcode) hcode hpage hhit, rfl, rfl, rfl, rfl⟩

/-- A new entry; a large page is added to the region. -/
theorem TlbInv.setPage (h : TlbInv s) {mmuIdx} (hpow : ∃ k < t.longBits, size = twoPow t.longBits k)
    (hs : tlbSetPage s watchpoints sec vaddr paddr prot mmuIdx size = some s') : TlbInv s' := by
  obtain ⟨hsize, s₁, te, hlarge, hte, htable, haddr, hmask, hentered⟩ := tlbSetPage_cases hs
  have hframe : s₁.tlbTable = s.tlbTable ∧ s₁.entered = s.entered := by
    split at hlarge
    · exact tlbAddLargePage_frame hlarge
    · cases hlarge
      exact ⟨rfl, rfl⟩
  refine ⟨fun idx i page hpage hhit => ?_, ?_⟩
  · rw [htable, hframe.1] at hhit
    rw [hentered, hframe.2]
    by_cases hslot : idx = mmuIdx ∧ i = tlbIndex vaddr
    · obtain ⟨rfl, rfl⟩ := hslot
      rw [update_self, update_self] at hhit
      have hpg := hte page hpage hhit
      exact ⟨hpg ▸ tlbIndex_and_pageMask vaddr, _, List.mem_cons_self, hpg⟩
    · have hold : (s.tlbTable idx i).Hits page := by
        by_cases hidx : idx = mmuIdx
        · subst hidx
          rwa [update_self, update_of_ne fun hi => hslot ⟨rfl, hi⟩] at hhit
        · rwa [update_of_ne hidx] at hhit
      obtain ⟨hi, m, hm, hpg⟩ := h.slot idx i page hpage hold
      exact ⟨hi, m, List.mem_cons_of_mem _ hm, hpg⟩
  · split at hlarge
    · next hne =>
      obtain ⟨k, hk, rfl⟩ := hpow
      have hpos : 0 < k := by
        rw [Nat.pos_iff_ne_zero]
        rintro rfl
        apply hsize
        rw [pageSize, lt_def, toNat_twoPow, toNat_twoPow,
          Nat.mod_eq_of_lt (Nat.pow_lt_pow_right (by omega) hk),
          Nat.mod_eq_of_lt (Nat.pow_lt_pow_right (by omega) t.page_lt)]
        exact Nat.pow_lt_pow_right (by omega) (by have := t.flags_lt; omega)
      have hblock := h.block.addLargePage hpos hk rfl hlarge
      rw [LargeBlock, haddr, hmask, hentered, hframe.2]
      exact hblock
    · next heq =>
      cases hlarge
      rw [LargeBlock, haddr, hmask, hentered]
      rcases h.block with ⟨hnone, hsmall⟩ | ⟨k, hk, hm, hself, hall⟩
      · refine .inl ⟨hnone, fun m hmem => ?_⟩
        rcases List.mem_cons.1 hmem with rfl | hmem
        · exact not_not.1 heq
        · exact hsmall m hmem
      · refine .inr ⟨k, hk, hm, hself, fun m hmem hne => ?_⟩
        rcases List.mem_cons.1 hmem with rfl | hmem
        · exact absurd (not_not.1 heq) hne
        · exact hall m hmem hne

/-! ## Runs -/

/-- The operations on the TLB of a CPU, with what they read of the rest of the machine. -/
inductive TlbOp (t : TlbTarget)
  | setPage (watchpoints : List (CpuWatchpoint t)) (sec : IotlbSection) (vaddr : t.Ulong)
      (paddr : BitVec 64) (prot : PageProt) (mmuIdx : Fin t.nbMmuModes) (size : t.Ulong)
  | flush
  | flushPage (addr : t.Ulong)
  | resetDirtyAll (start length : BitVec 64)
  | setDirty (vaddr : t.Ulong)

def tlbStep : TlbOp t → CpuTlb t → Option (CpuTlb t)
  | .setPage watchpoints sec vaddr paddr prot mmuIdx size, s =>
    tlbSetPage s watchpoints sec vaddr paddr prot mmuIdx size
  | .flush, s => some (tlbFlush s)
  | .flushPage addr, s => some (tlbFlushPage s addr)
  | .resetDirtyAll start length, s => some (cpuTlbResetDirtyAll s start length)
  | .setDirty vaddr, s => some (tlbSetDirty s vaddr)

/-- Sizes are powers of two. -/
def TlbOk (_ : CpuTlb t) : TlbOp t → Prop
  | .setPage _ _ _ _ _ _ size => ∃ k < t.longBits, size = twoPow t.longBits k
  | _ => True

/-- A CPU after its reset, which ends in `tlb_flush`; `s` is whatever was there before. -/
def tlbReset (s : CpuTlb t) : CpuTlb t := tlbFlush s

theorem tlbInv_reach {s₀} (h : Reach tlbStep TlbOk (tlbReset s₀) s) : TlbInv s := by
  refine h.invariant (TlbInv.flush s₀) fun s op s' hinv hok hs => ?_
  cases op with
  | setPage => exact hinv.setPage hok hs
  | flush =>
    cases hs
    exact TlbInv.flush s
  | flushPage addr =>
    cases hs
    exact hinv.flushPage addr
  | resetDirtyAll =>
    cases hs
    exact hinv.mono _ fun _ _ _ _ hhit => hhit.of_resetDirty
  | setDirty vaddr =>
    cases hs
    exact hinv.setDirty vaddr

/-- The block holds every address of every large mapping. -/
theorem LargeBlock.covers (h : LargeBlock s) (hm : m ∈ s.entered) (hlarge : m.size ≠ t.pageSize)
    (hcov : m.Covers addr) : addr &&& s.tlbFlushMask = s.tlbFlushAddr := by
  rcases h with ⟨-, hsmall⟩ | ⟨k, -, hmask, hself, hall⟩
  · exact absurd (hsmall m hm) hlarge
  · obtain ⟨j, hjk, hj, hsize, hin⟩ := hall m hm hlarge
    rw [← hin, hmask]
    exact and_prefixMask_mono ((covers_iff hj hsize).1 hcov) hjk

/-- The flush of an address leaves no entry for the page of a mapping around it. -/
theorem TlbInv.flushPage_misses (h : TlbInv s) (hm : m ∈ s.entered) (hcov : m.Covers addr)
    (mmuIdx : Fin t.nbMmuModes) (i : Fin cpuTlbSize) :
    ¬((tlbFlushPage s addr).tlbTable mmuIdx i).Hits (m.vaddr &&& t.pageMask) := by
  intro hhit
  have hpage := and_pageMask_self m.vaddr
  unfold tlbFlushPage at hhit
  split at hhit
  · exact CpuTlbEntry.not_hits_invalid hpage hhit
  · next hout =>
    -- outside of the block the mapping is a page, the one that is flushed
    have hsmall : m.size = t.pageSize := by
      by_contra hlarge
      exact hout (h.block.covers hm hlarge hcov)
    have hsame : m.vaddr &&& t.pageMask = addr &&& t.pageMask := by
      rw [pageMask_eq]
      exact ((covers_iff t.page_lt hsmall).1 hcov).symm
    dsimp only at hhit
    split at hhit
    · exact (CpuTlbEntry.Hits.of_flush hpage hhit).2 hsame
    · next hi =>
      rw [← hsame] at hi
      exact hi (h.slot mmuIdx i _ hpage hhit).1.symm

/-- In every state that a CPU reaches after its reset, the loop over the mask ends, the block holds
all large mappings since the last full flush, every entry stems from a mapping since then, and the
flush of a page leaves no entry, in any MMU mode, for the page of a mapping whose aligned range
holds the address. -/
theorem tlbFlushPage_complete {s₀ : CpuTlb t} (h : Reach tlbStep TlbOk (tlbReset s₀) s) :
    (∀ vaddr size, ∃ s', tlbAddLargePage s vaddr size = some s') ∧
    (∀ m ∈ s.entered, m.size ≠ t.pageSize → ∀ addr, m.Covers addr →
      addr &&& s.tlbFlushMask = s.tlbFlushAddr) ∧
    (∀ mmuIdx i page, page &&& t.pageMask = page → (s.tlbTable mmuIdx i).Hits page →
      ∃ m ∈ s.entered, m.vaddr &&& t.pageMask = page) ∧
    ∀ addr, ∀ m ∈ s.entered, m.Covers addr → ∀ mmuIdx i,
      ¬((tlbFlushPage s addr).tlbTable mmuIdx i).Hits (m.vaddr &&& t.pageMask) := by
  have hinv := tlbInv_reach h
  exact ⟨tlbAddLargePage_isSome s, fun m hm hlarge addr => hinv.block.covers hm hlarge,
    fun mmuIdx i page hpage hhit => (hinv.slot mmuIdx i page hpage hhit).2,
    fun addr m hm hcov => hinv.flushPage_misses hm hcov⟩

/-- The softmmu of a 32-bit ARM. -/
def armTlb : TlbTarget := ⟨32, 10, 2, by decide, by decide⟩

def armTlb.user : Fin armTlb.nbMmuModes := ⟨0, by decide⟩

def armTlb.secondPage : armTlb.Ulong := 0x100400#32

def armTlb.lastPage : armTlb.Ulong := 0x1ffc00#32

def armTlb.megabyte : armTlb.Ulong := 0x100000#32

/-- A megabyte of RAM, entered at its second page. -/
def armTlb.enterMegabyte : TlbOp armTlb :=
  .setPage [] ⟨true, false, false, false, 0, 0, 4, 0, 0x100000⟩ secondPage 0 ⟨true, true, true⟩
    user megabyte

/-- The megabyte is flushed at its last page : the entry is found before the flush, and in no MMU
mode after it. -/
theorem tlbFlushPage_complete_megabyte : ∃ s : CpuTlb armTlb,
    (s.tlbTable armTlb.user (tlbIndex armTlb.secondPage)).Hits armTlb.secondPage ∧
      ∀ mmuIdx i, ¬((tlbFlushPage s armTlb.lastPage).tlbTable mmuIdx i).Hits armTlb.secondPage := by
  obtain ⟨s₀, hs₀⟩ := @exists_eq (CpuTlb armTlb) (⟨fun _ _ => .invalid, fun _ _ => 0, 0, 0, []⟩)
  have hrun : ((tlbStep armTlb.enterMegabyte (tlbReset s₀)).map fun s =>
      decide ((s.tlbTable armTlb.user (tlbIndex armTlb.secondPage)).Hits armTlb.secondPage ∧
        ⟨armTlb.secondPage, armTlb.megabyte⟩ ∈ s.entered)) = some true := by
    subst hs₀
    decide +kernel
  obtain ⟨s, hs, hdec⟩ := Option.map_eq_some_iff.1 hrun
  obtain ⟨hhit, hentered⟩ := of_decide_eq_true hdec
  have hok : TlbOk (tlbReset s₀) armTlb.enterMegabyte := ⟨20, by decide, rfl⟩
  have hcov : Covers ⟨armTlb.secondPage, armTlb.megabyte⟩ armTlb.lastPage := by
    rw [Covers]
    decide
  exact ⟨s, hhit, (tlbFlushPage_complete (Reach.refl.tail hok hs)).2.2.2 _ _ hentered hcov⟩

end QemuArm
