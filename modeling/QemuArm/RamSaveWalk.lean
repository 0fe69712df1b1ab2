import QemuArm.RamSaveScan

/-!
# The walk of `ram_save_block` over the blocks

A call starts at the page where the last one stopped, walks to the end of the blocks and then from
the first block to where it started. `ramSaveBlock_spec` : from a state that the migration can
reach, a call ends; each bit that it clears belongs to a page that it puts on the stream or that is
equal to its cached copy; and it returns zero only when no page of any block is dirty. The one
exception is a state of the bulk stage (`LosesLastPage`) : the walk that has reached the last page
of the last block skips that page's bit, and takes it up at the end of the round only to drop it.
-/

namespace QemuArm

open List Finset RAMList Option

variable {α : Type}

/-! ## Blocks and their pages -/

namespace RAMList

variable {l : RAMList}

variable {b : RAMBlock}

theorem index_eq {i} (h : l.blocks[i]? = some b) : l.index b.ptr = i := by
  obtain ⟨hi, hb⟩ := List.getElem?_eq_some_iff.mp h
  unfold index
  rw [findIdx_eq hi]
  refine ⟨by simp [hb], fun j hj => ?_⟩
  have hne := pairwise_iff_getElem.mp l.ptr_nodup j i (by rw [length_map]; omega)
    (by rwa [length_map]) hj
  simpa [hb] using hne

/-- A page belongs to one block only. -/
theorem page_inj {i j o p : ℕ} {a} (ha : l.blocks[i]? = some a)
    (hb : l.blocks[j]? = some b) (ho : o < a.length) (hp : p < b.length)
    (h : a.offset + o = b.offset + p) : i = j ∧ o = p := by
  obtain ⟨hi, rfl⟩ := List.getElem?_eq_some_iff.mp ha
  obtain ⟨hj, rfl⟩ := List.getElem?_eq_some_iff.mp hb
  have hdis := pairwise_iff_getElem.mp l.disjoint
  rcases Nat.lt_trichotomy i j with hij | rfl | hij
  · have := hdis i j hi hj hij
    omega
  · exact ⟨rfl, by omega⟩
  · have := hdis j i hj hi hij
    omega

theorem page_lt_lastRamOffset {o} (hb : b ∈ l.blocks) (ho : o < b.length) :
    b.offset + o < l.lastRamOffset := by
  have hle : ∀ bs : List RAMBlock, b ∈ bs →
      b.offset + b.length ≤ bs.foldr (fun b m => max (b.offset + b.length) m) 0 := by
    intro bs
    induction bs with
    | nil => simp
    | cons a bs ih =>
      intro hmem
      rcases mem_cons.mp hmem with rfl | hmem
      · exact le_max_left _ _
      · exact le_trans (ih hmem) (le_max_right _ _)
  have := hle l.blocks hb
  unfold lastRamOffset
  omega

end RAMList

/-- The page `o` of the block at position `i` is dirty. -/
def RamState.DirtyAt (st : RamState α) (i o : ℕ) : Prop :=
  ∃ b, st.ramList.blocks[i]? = some b ∧ o < b.length ∧ st.migrationBitmap (b.offset + o) = true

open RamState

variable {st st' : RamState α} {i o : ℕ} {b : RAMBlock} {c : XbzrleCodec α} {n : ℤ}

theorem RamState.dirtyAt_iff (hb : st.ramList.blocks[i]? = some b) :
    st.DirtyAt i o ↔ o < b.length ∧ st.migrationBitmap (b.offset + o) = true := by
  constructor
  · rintro ⟨b', hb', h⟩
    obtain rfl := some.inj (hb.symm.trans hb')
    exact h
  · exact fun h => ⟨b, hb, h⟩

theorem RamState.not_dirtyAt (hb : st.ramList.blocks[i]? = some b)
    (h : o < b.length → st.migrationBitmap (b.offset + o) = false) : ¬st.DirtyAt i o := by
  rw [dirtyAt_iff hb]
  rintro ⟨ho, hbit⟩
  rw [h ho] at hbit
  cases hbit

/-- The dirty pages. -/
def RamState.dirtyPages (st : RamState α) : Finset ℕ :=
  (Finset.range st.ramList.lastRamOffset).filter fun x => st.migrationBitmap x = true

variable {x : ℕ}

theorem clearDirty_bit {y} (h : (st.clearDirty x).migrationBitmap y = true) :
    st.migrationBitmap y = true ∧ y ≠ x := by
  unfold clearDirty at h
  dsimp only at h
  by_cases hy : y = x
  · rw [hy, Function.update_self] at h
    cases h
  · rw [Function.update_of_ne hy] at h
    exact ⟨h, hy⟩

theorem clearDirty_bit_of_ne {y} (h : y ≠ x) :
    (st.clearDirty x).migrationBitmap y = st.migrationBitmap y :=
  Function.update_of_ne h _ _

theorem card_dirtyPages_clearDirty (hx : st.migrationBitmap x = true)
    (hlt : x < st.ramList.lastRamOffset) :
    (st.clearDirty x).dirtyPages.card < st.dirtyPages.card := by
  apply card_lt_card
  rw [ssubset_iff_of_subset]
  · refine ⟨x, Finset.mem_filter.mpr ⟨Finset.mem_range.mpr hlt, hx⟩, fun hmem => ?_⟩
    exact (clearDirty_bit (Finset.mem_filter.mp hmem).2).2 rfl
  · intro y hy
    obtain ⟨hlt, hbit⟩ := Finset.mem_filter.mp hy
    exact Finset.mem_filter.mpr ⟨hlt, (clearDirty_bit hbit).1⟩

/-! ## What a call leaves behind -/

/-- The page was put on the stream between `st` and `st'`. -/
def Sends (c : XbzrleCodec α) (st st' : RamState α) (page : ℕ) : Prop :=
  ∃ block ∈ st.ramList.blocks, ∃ offset < block.length, page = block.offset + offset ∧
    st'.lastSentBlock = some block.ptr ∧
    ∃ r, st'.stream = st.stream ++ [r] ∧ RecordOf c st block offset r

theorem Sends.congr {st₁ page} (h : Sends c st₁ st' page)
    (hl : st.ramList = st₁.ramList) (hm : st.mem = st₁.mem) (hc : st.cache = st₁.cache)
    (hs : st.lastSentBlock = st₁.lastSentBlock) (hstream : st.stream = st₁.stream) :
    Sends c st st' page := by
  obtain ⟨block, hb, offset, ho, hp, hlast, r, hr, hrec⟩ := h
  exact ⟨block, by rw [hl]; exact hb, offset, ho, hp, hlast, r, by rw [hstream]; exact hr,
    hrec.congr hm hc hs⟩

/-- What holds between two calls. -/
structure SaveInv (c : XbzrleCodec α) (st : RamState α) : Prop where
  cache : st.useXbzrle = true → st.cache.isSome = true
  seen : ∀ ptr, st.lastSeenBlock = some ptr →
    ∃ (i : ℕ) (b : RAMBlock), st.ramList.blocks[i]? = some b ∧ b.ptr = ptr ∧
      st.lastOffset ≤ b.length
  /-- At first all is dirty. -/
  start : st.lastSeenBlock = none → st.ramBulkStage = true ∧ st.lastOffset = 0 ∧
    ∀ (i : ℕ) (b : RAMBlock) (o : ℕ), st.ramList.blocks[i]? = some b → o < b.length →
      st.migrationBitmap (b.offset + o) = true
  /-- In the bulk stage the cache is empty, and all pages behind the last one are dirty. -/
  bulk : st.ramBulkStage = true → (st.useXbzrle = true → ∀ x, cachedPage c st x = none) ∧
    ∀ (i : ℕ) (b : RAMBlock), st.ramList.blocks[i]? = some b → st.lastSeenBlock = some b.ptr →
      st.lastOffset < b.length ∧
      ∀ (j : ℕ) (b' : RAMBlock) (o : ℕ), st.ramList.blocks[j]? = some b' → o < b'.length →
        (i < j ∨ i = j ∧ st.lastOffset < o) → st.migrationBitmap (b'.offset + o) = true

/-- The outcome of a call that returned `n`. -/
structure SaveDone (c : XbzrleCodec α) (st st' : RamState α) (n : ℤ) : Prop where
  nonneg : 0 ≤ n
  frame : ∃ bits count seen sent off bulk cache stream, st' = { st with
    migrationBitmap := bits, migrationDirtyPages := count, lastSeenBlock := seen
    lastSentBlock := sent, lastOffset := off, ramBulkStage := bulk, cache := cache
    stream := stream }
  bits : ∀ x, st'.migrationBitmap x = true → st.migrationBitmap x = true
  handled : ∀ x, st.migrationBitmap x = true → st'.migrationBitmap x = false →
    Sends c st st' x ∨ cachedPage c st x = some (st.mem x)
  quiet : n = 0 → st'.stream = st.stream ∧ st'.cache = st.cache ∧ ∀ i o, ¬st'.DirtyAt i o
  progress : 0 < n → st'.dirtyPages.card < st.dirtyPages.card
  /-- The page that was sent is no longer dirty. -/
  last_clean : 0 < n → ∀ (i : ℕ) (b : RAMBlock), st'.ramList.blocks[i]? = some b →
    st'.lastSeenBlock = some b.ptr → ¬st'.DirtyAt i st'.lastOffset
  inv : SaveInv c st'

/-- A page equal to its cached copy, passed over at the start of the rest of the call. -/
theorem SaveDone.of_clearDirty (hsame : cachedPage c st x = some (st.mem x))
    (h : SaveDone c (st.clearDirty x) st' n) (hcard : (st.clearDirty x).dirtyPages.card <
      st.dirtyPages.card) : SaveDone c st st' n where
  nonneg := h.nonneg
  frame := by
    obtain ⟨bits, count, seen, sent, off, bulk, cache, stream, rfl⟩ := h.frame
    exact ⟨bits, count, seen, sent, off, bulk, cache, stream, rfl⟩
  bits y hy := (clearDirty_bit (h.bits y hy)).1
  handled y hy hy' := by
    by_cases hyx : y = x
    · rw [hyx]
      exact .inr hsame
    · rcases h.handled y (by rw [clearDirty_bit_of_ne hyx]; exact hy) hy' with hs | hs
      · exact .inl (hs.congr rfl rfl rfl rfl rfl)
      · exact .inr hs
  quiet := h.quiet
  progress hn := (h.progress hn).trans hcard
  last_clean := h.last_clean
  inv := h.inv

/-- The end of the bulk stage changes nothing else. -/
theorem SaveDone.of_endBulk (h : SaveDone c { st with ramBulkStage := false } st' n) :
    SaveDone c st st' n where
  nonneg := h.nonneg
  frame := by
    obtain ⟨bits, count, seen, sent, off, bulk, cache, stream, rfl⟩ := h.frame
    exact ⟨bits, count, seen, sent, off, bulk, cache, stream, rfl⟩
  bits := h.bits
  handled x hx hx' := by
    rcases h.handled x hx hx' with hs | hs
    · exact .inl (hs.congr rfl rfl rfl rfl rfl)
    · exact .inr hs
  quiet := h.quiet
  progress := h.progress
  last_clean := h.last_clean
  inv := h.inv

/-- In the bulk stage nothing is cached, and all pages after page `o` of block `i` are dirty. -/
def BulkAhead (c : XbzrleCodec α) (st : RamState α) (i o : ℕ) : Prop :=
  st.ramBulkStage = true → (st.useXbzrle = true → ∀ x, cachedPage c st x = none) ∧
    ∀ (j : ℕ) (b' : RAMBlock) (p : ℕ), st.ramList.blocks[j]? = some b' → p < b'.length →
      (i < j ∨ i = j ∧ o < p) → st.migrationBitmap (b'.offset + p) = true

/-- A page that was sent : the end of the call. -/
theorem SaveDone.of_sent {lastStage : Bool} {env : SaveEnv} {cache}
    {recs} (hb : st.ramList.blocks[i]? = some b) (ho : o < b.length)
    (hbit : st.migrationBitmap (b.offset + o) = true)
    (hcache : st.useXbzrle = true → st.cache.isSome = true) (hbulk : BulkAhead c st i o) (hout :
      PageOutcome c lastStage env (st.clearDirty (b.offset + o)) b o cache recs n) (hn : 0 < n) :
    SaveDone c st { st.clearDirty (b.offset + o) with
      cache := cache
      stream := st.stream ++ recs
      lastSentBlock := some b.ptr
      lastSeenBlock := some b.ptr
      lastOffset := o } n := by
  have hmem : b ∈ st.ramList.blocks := mem_of_getElem? hb
  have hsent : ∃ r, recs = [r] ∧ RecordOf c st b o r := by
    cases hout with
    | identical => omega
    | kept _ hr | stored _ _ _ hr => exact ⟨_, rfl, hr.congr rfl rfl rfl⟩
  have hkeep : st.ramBulkStage = true → cache = st.cache := by
    intro hb'
    cases hout with
    | identical => rfl
    | kept => rfl
    | stored _ _ hb'' =>
      have : st.ramBulkStage = false := hb''
      rw [hb'] at this
      cases this
  have hsome : st.useXbzrle = true → cache.isSome = true := by
    intro hx
    cases hout with
    | identical | kept => exact hcache hx
    | stored => rfl
  obtain ⟨r, rfl, hr⟩ := hsent
  refine ⟨hn.le, ⟨_, _, _, _, _, _, _, _, rfl⟩, fun x hx => (clearDirty_bit hx).1,
    fun x hx hx' => ?_,
    fun h0 => absurd h0 hn.ne', fun _ => ?_, fun _ j b' hj hptr hdirty => ?_, ?_⟩
  · by_cases hxo : x = b.offset + o
    · exact .inl ⟨b, hmem, o, ho, hxo, rfl, r, rfl, hr⟩
    · have hkept : (st.clearDirty (b.offset + o)).migrationBitmap x = false := hx'
      rw [clearDirty_bit_of_ne hxo, hx] at hkept
      cases hkept
  · exact card_dirtyPages_clearDirty hbit (page_lt_lastRamOffset hmem ho)
  · obtain rfl : j = i := by
      rw [← index_eq hj, ← index_eq hb, some.inj hptr]
      rfl
    obtain rfl := some.inj (hb.symm.trans hj)
    exact (clearDirty_bit ((dirtyAt_iff hj).mp hdirty).2).2 rfl
  · refine ⟨hsome, fun ptr hp => ?_, fun hnone => (nomatch hnone), fun hb' => ?_⟩
    · cases hp
      exact ⟨i, b, hb, rfl, ho.le⟩
    · obtain ⟨hempty, hrest⟩ := hbulk hb'
      refine ⟨fun hx x => ?_, fun j b' hj hptr => ?_⟩
      · have := hempty hx x
        rw [hkeep hb']
        exact this
      · -- The block last seen is the one of the page just sent.
        obtain rfl : j = i := by
          rw [← index_eq hj, ← index_eq hb, some.inj hptr]
          rfl
        obtain rfl := some.inj (hb.symm.trans hj)
        refine ⟨ho, fun k b'' p hk hp hlt => ?_⟩
        have hlt : j < k ∨ j = k ∧ o < p := hlt
        have hne : b''.offset + p ≠ b.offset + o := by
          intro heq
          obtain ⟨hkj, hpo⟩ := page_inj hk hb hp ho heq
          omega
        exact (clearDirty_bit_of_ne hne).trans (hrest k b'' p hk hp hlt)

/-! ## One round of the loop -/

section Loop

variable [DecidableEq α] {c : XbzrleCodec α} {lastStage : Bool} {env : SaveEnv}
  {st st₁ : RamState α} {i start off fuel : ℕ} {b : RAMBlock} {complete : Bool} {n : ℤ}

/-- The test that ends a round : the walk is back where it started. -/
def RoundEnds (st : RamState α) (b : RAMBlock) (off : ℕ) (complete : Bool) : Prop :=
  complete = true ∧ st.lastSeenBlock = some b.ptr ∧ st.lastOffset ≤ off

theorem ramSaveBlockLoop_break (hf : migrationBitmapFindAndResetDirty st b start = (st₁, off))
    (hend : RoundEnds st₁ b off complete) :
    ramSaveBlockLoop c lastStage env (fuel + 1) st b start complete n =
      some ({ st₁ with lastSeenBlock := some b.ptr, lastOffset := off }, n) := by
  unfold ramSaveBlockLoop
  rw [hf]
  exact if_pos hend

section

variable (hf : migrationBitmapFindAndResetDirty st b start = (st₁, off))
  (hend : ¬RoundEnds st₁ b off complete)
include hf hend

theorem ramSaveBlockLoop_next {b'} (hoff : b.length ≤ off)
    (hb : st₁.ramList.blocks[i]? = some b) (hb' : st₁.ramList.blocks[i + 1]? = some b') :
    ramSaveBlockLoop c lastStage env (fuel + 1) st b start complete n =
      ramSaveBlockLoop c lastStage env fuel st₁ b' 0 complete n := by
  unfold RoundEnds at hend
  conv_lhs => unfold ramSaveBlockLoop
  rw [hf]
  rw [if_neg hend, if_pos hoff, index_eq hb, hb']

theorem ramSaveBlockLoop_wrap {b'} (hoff : b.length ≤ off)
    (hb : st₁.ramList.blocks[i]? = some b) (hlast : st₁.ramList.blocks[i + 1]? = none)
    (hb' : st₁.ramList.blocks[0]? = some b') :
    ramSaveBlockLoop c lastStage env (fuel + 1) st b start complete n =
      ramSaveBlockLoop c lastStage env fuel { st₁ with ramBulkStage := false } b' 0 true n := by
  unfold RoundEnds at hend
  conv_lhs => unfold ramSaveBlockLoop
  rw [hf]
  rw [if_neg hend, if_pos hoff, index_eq hb, hlast, head?_eq_getElem?, hb']

theorem ramSaveBlockLoop_save (hoff : off < b.length) :
    ramSaveBlockLoop c lastStage env (fuel + 1) st b start complete n =
      (ramSavePage c lastStage env st₁ b off).bind fun r =>
        if 0 < r.2 then
          some ({ r.1 with
            lastSentBlock := some b.ptr
            lastSeenBlock := some b.ptr
            lastOffset := off }, r.2)
        else ramSaveBlockLoop c lastStage env fuel r.1 b off complete r.2 := by
  unfold RoundEnds at hend
  conv_lhs => unfold ramSaveBlockLoop
  rw [hf]
  rw [if_neg hend, if_neg (Nat.not_le.mpr hoff)]
  rfl

end

/-- What a call comes to : it returns when there is memory, and then as `SaveDone` says. -/
def Returns (c : XbzrleCodec α) (env : SaveEnv) (st : RamState α)
    (r : Option (RamState α × ℤ)) : Prop :=
  (env.alloc = true → r.isSome = true) ∧ ∀ st' n, r = some (st', n) → SaveDone c st st' n

omit [DecidableEq α] in
/-- The end of the bulk stage changes nothing else. -/
theorem Returns.of_endBulk {r}
    (h : Returns c env { st with ramBulkStage := false } r) : Returns c env st r :=
  ⟨h.1, fun st' n hr => (h.2 st' n hr).of_endBulk⟩

/-- A dirty page found : it is sent, or it is equal to its cached copy and the walk goes on. -/
theorem returns_save (hb : st.ramList.blocks[i]? = some b) (hoff : off < b.length)
    (hbit : st.migrationBitmap (b.offset + off) = true)
    (hcache : st.useXbzrle = true → st.cache.isSome = true) (hbulk : BulkAhead c st i off)
    (hf : migrationBitmapFindAndResetDirty st b start = (st.clearDirty (b.offset + off), off))
    (hend : ¬RoundEnds st b off complete) (hrest : st.ramBulkStage = false → st.useXbzrle = true →
      cachedPage c st (b.offset + off) = some (st.mem (b.offset + off)) →
      Returns c env (st.clearDirty (b.offset + off)) (ramSaveBlockLoop c lastStage env fuel
        (st.clearDirty (b.offset + off)) b off complete 0)) :
    Returns c env st (ramSaveBlockLoop c lastStage env (fuel + 1) st b start complete n) := by
  have hmem : b ∈ st.ramList.blocks := mem_of_getElem? hb
  have hcard := card_dirtyPages_clearDirty hbit (page_lt_lastRamOffset hmem hoff)
  rw [ramSaveBlockLoop_save hf hend hoff]
  cases hp : ramSavePage c lastStage env (st.clearDirty (b.offset + off)) b off with
  | none =>
    refine ⟨fun ha => ?_, fun st' n h => nomatch h⟩
    obtain ⟨r, hr⟩ := exists_ramSavePage c lastStage (st.clearDirty (b.offset + off)) b off ha
      hcache
    rw [hp] at hr
    cases hr
  | some r =>
    obtain ⟨st₂, n₂⟩ := r
    rw [bind_some]
    obtain ⟨cache', recs, hout, rfl⟩ := ramSavePage_outcome hp
    by_cases hn : 0 < n₂
    · rw [if_pos hn]
      refine ⟨fun _ => rfl, fun st' n h => ?_⟩
      cases h
      exact SaveDone.of_sent hb hoff hbit hcache hbulk hout hn
    · cases hout with
      | identical hx hb' hsame =>
        obtain ⟨hret, hdone⟩ := hrest hb' hx hsame
        rw [append_nil]
        exact ⟨hret, fun st' n h => (hdone st' n h).of_clearDirty hsame hcard⟩
      | kept hn' | stored hn' => exact absurd hn' hn

end Loop

/-! ## The walk outside the bulk stage -/

/-- The page `p` of block `j` lies behind the page `o₀` of block `i₀`, where the walk started. -/
def Behind (i₀ o₀ j p : ℕ) : Prop := i₀ < j ∨ i₀ = j ∧ o₀ ≤ p

/-- The page `p` of block `j` lies before the page `o` of block `i`. -/
def Before (i o j p : ℕ) : Prop := j < i ∨ j = i ∧ p < o

/-- The pages that the walk has passed when it is at the page `o` of block `i`. -/
def Passed (i₀ o₀ : ℕ) (complete : Bool) (i o j p : ℕ) : Prop :=
  if complete then Behind i₀ o₀ j p ∨ Before i o j p else Behind i₀ o₀ j p ∧ Before i o j p

/-- What was passed before is passed from here. -/
theorem Passed.mono {i₀ o₀ i' o' j p complete} (h : Passed i₀ o₀ complete i' o' j p)
    (hb : Before i' o' j p → Before i o j p) : Passed i₀ o₀ complete i o j p := by
  unfold Passed at h ⊢
  split_ifs at h ⊢
  · exact h.imp_right hb
  · exact ⟨h.1, hb h.2⟩

/-- The walk of a call that started at block `i₀`, at the page `start` of block `i`. -/
structure Walk (c : XbzrleCodec α) (st : RamState α) (i₀ : ℕ) (i : ℕ) (b : RAMBlock) (start : ℕ)
    (complete : Bool) : Prop where
  seen : ∃ b₀ : RAMBlock, st.ramList.blocks[i₀]? = some b₀ ∧ st.lastSeenBlock = some b₀.ptr ∧
    st.lastOffset ≤ b₀.length
  block : st.ramList.blocks[i]? = some b
  start_le : start ≤ b.length
  order : if complete then i ≤ i₀ else i₀ ≤ i ∧ (i₀ = i → st.lastOffset ≤ start)
  cache : st.useXbzrle = true → st.cache.isSome = true
  bulk : st.ramBulkStage = false
  /-- What was passed is clean, unless nothing is cached and there is a dirty page ahead. -/
  clean : (∀ j p, Passed i₀ st.lastOffset complete i start j p → ¬st.DirtyAt j p) ∨
    complete = true ∧ (st.useXbzrle = true → ∀ x, cachedPage c st x = none) ∧
      ∃ j p, st.DirtyAt j p ∧ ¬Before i start j p ∧ Before i₀ st.lastOffset j p

/-- How many blocks the walk has still to go to. -/
def movesLeft (st : RamState α) (i₀ i : ℕ) (complete : Bool) : ℕ :=
  if complete then i₀ - i else st.ramList.blocks.length - i + i₀ + 1

namespace Walk

variable {c : XbzrleCodec α} {st : RamState α} {i₀ i start off : ℕ} {b : RAMBlock}
  {complete : Bool} (w : Walk c st i₀ i b start complete)

include w

/-- The walk is back at its first block exactly when the round ends there. -/
theorem roundEnds_iff : RoundEnds st b off complete ↔
    complete = true ∧ i = i₀ ∧ st.lastOffset ≤ off := by
  obtain ⟨b₀, hb₀, hseen, -⟩ := w.seen
  unfold RoundEnds
  rw [hseen]
  constructor
  · rintro ⟨hc, hp, ho⟩
    refine ⟨hc, ?_, ho⟩
    rw [← index_eq w.block, ← index_eq hb₀, some.inj hp]
  · rintro ⟨hc, rfl, ho⟩
    obtain rfl := some.inj (w.block.symm.trans hb₀)
    exact ⟨hc, rfl, ho⟩

/-- A dirty page that the walk finds was not passed before. -/
theorem not_roundEnds (hoff : off < b.length) (hbit : st.migrationBitmap (b.offset + off) = true)
    (hclear : ∀ o, start ≤ o → o < off → st.migrationBitmap (b.offset + o) = false) :
    ¬RoundEnds st b off complete := by
  rw [w.roundEnds_iff]
  rintro ⟨rfl, rfl, ho⟩
  rcases w.clean with hclean | ⟨-, -, j, p, hdirty, hnot, hbefore⟩
  · exact hclean i off (.inl (.inr ⟨rfl, ho⟩)) ⟨b, w.block, hoff, hbit⟩
  · unfold Before at hnot hbefore
    obtain rfl : j = i := by omega
    exact not_dirtyAt w.block (fun _ => hclear p (by omega) (by omega)) hdirty

/-- A page equal to its cached copy is passed. -/
theorem skip (hlo : start ≤ off) (hoff : off < b.length)
    (hclear : ∀ o, start ≤ o → o < off → st.migrationBitmap (b.offset + o) = false) {data}
    (hx : st.useXbzrle = true) (hsame : cachedPage c st x = some data) :
    Walk c (st.clearDirty x) i₀ i b off complete where
  seen := w.seen
  block := w.block
  start_le := hoff.le
  order := by
    have horder := w.order
    split_ifs at horder ⊢
    · exact horder
    · exact ⟨horder.1, fun h => (horder.2 h).trans hlo⟩
  cache := w.cache
  bulk := w.bulk
  clean := by
    rcases w.clean with hclean | ⟨-, hempty, -⟩
    · refine .inl fun j p hpassed hdirty => ?_
      have hdirty' : st.DirtyAt j p := by
        obtain ⟨b', hb', hp, hbit⟩ := hdirty
        exact ⟨b', hb', hp, (clearDirty_bit hbit).1⟩
      by_cases hnew : j = i ∧ start ≤ p ∧ p < off
      · obtain ⟨rfl, hp, hp'⟩ := hnew
        exact not_dirtyAt w.block (fun _ => hclear p hp hp') hdirty'
      · refine hclean j p (hpassed.mono fun h => ?_) hdirty'
        unfold Before at h ⊢
        omega
    · rw [hempty hx x] at hsame
      cases hsame

/-- Behind the last dirty page of a block the walk goes to the next block. -/
theorem next {b'} (hb' : st.ramList.blocks[i + 1]? = some b')
    (hclear : ∀ o, start ≤ o → o < b.length → st.migrationBitmap (b.offset + o) = false)
    (hend : ¬(complete = true ∧ i = i₀)) : Walk c st i₀ (i + 1) b' 0 complete where
  seen := w.seen
  block := hb'
  start_le := Nat.zero_le _
  order := by
    have horder := w.order
    split_ifs at horder ⊢ with hc
    · have : i ≠ i₀ := fun h => hend ⟨hc, h⟩
      omega
    · omega
  cache := w.cache
  bulk := w.bulk
  clean := by
    rcases w.clean with hclean | ⟨hc, hempty, j, p, hdirty, hnot, hbefore⟩
    · refine .inl fun j p hpassed hdirty => ?_
      by_cases hnew : j = i ∧ start ≤ p
      · obtain ⟨rfl, hp⟩ := hnew
        exact not_dirtyAt w.block (hclear p hp) hdirty
      · refine hclean j p (hpassed.mono fun h => ?_) hdirty
        unfold Before at h ⊢
        omega
    · refine .inr ⟨hc, hempty, j, p, hdirty, fun hb => ?_, hbefore⟩
      unfold Before at hnot hb
      obtain rfl : j = i := by omega
      exact not_dirtyAt w.block (hclear p (by omega)) hdirty

/-- Behind the last block the walk starts over at the first one. -/
theorem wrap {b'} (hlast : st.ramList.blocks[i + 1]? = none)
    (hb' : st.ramList.blocks[0]? = some b') (hc : complete = false)
    (hclear : ∀ o, start ≤ o → o < b.length → st.migrationBitmap (b.offset + o) = false) :
    Walk c { st with ramBulkStage := false } i₀ 0 b' 0 true where
  seen := w.seen
  block := hb'
  start_le := Nat.zero_le _
  order := by rw [if_pos rfl]; omega
  cache := w.cache
  bulk := rfl
  clean := by
    rcases w.clean with hclean | ⟨hc', -⟩
    · refine .inl fun j p hpassed hdirty => ?_
      have hdirty : st.DirtyAt j p := hdirty
      obtain ⟨b'', hj, -⟩ := id hdirty
      have hji : j < i + 1 := by
        have hlen := getElem?_eq_none_iff.mp hlast
        have := (List.getElem?_eq_some_iff.mp hj).1
        omega
      have hbehind : Behind i₀ st.lastOffset j p := by
        have hp : Passed i₀ st.lastOffset true 0 0 j p := hpassed
        unfold Passed Before at hp
        rcases hp with h | h
        · exact h
        · omega
      by_cases hnew : j = i ∧ start ≤ p
      · obtain ⟨rfl, hp⟩ := hnew
        exact not_dirtyAt w.block (hclear p hp) hdirty
      · refine hclean j p ?_ hdirty
        unfold Passed
        rw [if_neg (by rw [hc]; decide)]
        refine ⟨hbehind, ?_⟩
        unfold Before
        omega
    · rw [hc] at hc'
      cases hc'

/-- Back at its first page, the walk has found nothing dirty. -/
theorem all_clean (hc : complete = true) (hi : i = i₀)
    (hclear : ∀ o, start ≤ o → o < b.length → st.migrationBitmap (b.offset + o) = false) :
    ∀ j p, ¬st.DirtyAt j p := by
  intro j p hdirty
  subst hi
  obtain ⟨b₀, hb₀, -, hle⟩ := w.seen
  by_cases hnew : j = i ∧ start ≤ p
  · obtain ⟨rfl, hp⟩ := hnew
    exact not_dirtyAt w.block (hclear p hp) hdirty
  · rcases w.clean with hclean | ⟨-, -, j', p', hdirty', hnot, hbefore⟩
    · refine hclean j p ?_ hdirty
      unfold Passed Behind Before
      rw [if_pos hc]
      omega
    · unfold Before at hnot hbefore
      obtain rfl : j' = i := by omega
      exact not_dirtyAt w.block (hclear p' (by omega)) hdirty'

end Walk

/-- The end of a round in which nothing was sent. -/
theorem SaveDone.of_round {off} (hb : st.ramList.blocks[i]? = some b) (hoff : off ≤ b.length)
    (hcache : st.useXbzrle = true → st.cache.isSome = true) (hbulk : st.ramBulkStage = false)
    (hclean : ∀ j p, ¬st.DirtyAt j p) :
    SaveDone c st { st with lastSeenBlock := some b.ptr, lastOffset := off } 0 where
  nonneg := le_refl 0
  frame := ⟨_, _, _, _, _, _, _, _, rfl⟩
  bits _ h := h
  handled x hx hx' := by
    rw [hx] at hx'
    cases hx'
  quiet _ := ⟨rfl, rfl, hclean⟩
  progress h := absurd h (lt_irrefl 0)
  last_clean h := absurd h (lt_irrefl 0)
  inv := by
    refine ⟨hcache, fun ptr hp => ?_, fun hn => (nomatch hn), fun hb' => ?_⟩
    · cases hp
      exact ⟨i, b, hb, rfl, hoff⟩
    · rw [hbulk] at hb'
      cases hb'

/-- The walk outside the bulk stage : by induction on the fuel, of which every round uses up a
dirty page or a block. -/
theorem returns_walk [DecidableEq α] {lastStage env} (i₀ : ℕ) :
    ∀ (fuel : ℕ) {st : RamState α} {i start : ℕ} {b : RAMBlock}
    {complete : Bool}, Walk c st i₀ i b start complete →
    st.dirtyPages.card + movesLeft st i₀ i complete < fuel →
      Returns c env st (ramSaveBlockLoop c lastStage env fuel st b start complete 0)
  | 0, _, _, _, _, _, _, hf => by omega
  | fuel + 1, st, i, start, b, complete, w, hf => by
    obtain ⟨off, hlo, hclear, hfound⟩ := findAndReset_spec w.start_le (.inl w.bulk)
    rcases hfound with ⟨hoff, hbit, hfind⟩ | ⟨rfl, hfind⟩
    · have hcard := card_dirtyPages_clearDirty hbit
        (page_lt_lastRamOffset (mem_of_getElem? w.block) hoff)
      have hbulk : BulkAhead c st i off := by
        intro h
        rw [w.bulk] at h
        cases h
      refine returns_save w.block hoff hbit w.cache hbulk hfind
        (w.not_roundEnds hoff hbit hclear) fun _ hx hsame => ?_
      refine returns_walk i₀ fuel (w.skip hlo hoff hclear hx hsame) ?_
      have hmoves : movesLeft (st.clearDirty (b.offset + off)) i₀ i complete =
          movesLeft st i₀ i complete := rfl
      omega
    · obtain ⟨b₀, hb₀, -, hle⟩ := w.seen
      have hi₀ := (List.getElem?_eq_some_iff.mp hb₀).1
      by_cases hend : complete = true ∧ i = i₀
      · obtain ⟨hc, rfl⟩ := hend
        obtain rfl := some.inj (w.block.symm.trans hb₀)
        rw [ramSaveBlockLoop_break hfind (w.roundEnds_iff.mpr ⟨hc, rfl, hle⟩)]
        refine ⟨fun _ => rfl, fun st' n h => ?_⟩
        cases h
        exact SaveDone.of_round w.block (le_refl _) w.cache w.bulk (w.all_clean hc rfl hclear)
      · have hnot : ¬RoundEnds st b b.length complete := fun h =>
          hend ⟨(w.roundEnds_iff.mp h).1, (w.roundEnds_iff.mp h).2.1⟩
        have horder := w.order
        cases hb' : st.ramList.blocks[i + 1]? with
        | some b' =>
          rw [ramSaveBlockLoop_next hfind hnot (le_refl _) w.block hb']
          refine returns_walk i₀ fuel (w.next hb' hclear hend) ?_
          have hlen' := (List.getElem?_eq_some_iff.mp hb').1
          unfold movesLeft at hf ⊢
          split_ifs at horder hf ⊢ with hc
          · have : i ≠ i₀ := fun h => hend ⟨hc, h⟩
            omega
          · omega
        | none =>
          have hlast := getElem?_eq_none_iff.mp hb'
          have hc : complete = false := by
            by_contra hc
            rw [Bool.not_eq_false] at hc
            rw [if_pos hc] at horder
            have : i ≠ i₀ := fun h => hend ⟨hc, h⟩
            omega
          obtain ⟨b', hb0⟩ : ∃ b', st.ramList.blocks[0]? = some b' :=
            ⟨_, getElem?_eq_getElem (by omega)⟩
          rw [ramSaveBlockLoop_wrap hfind hnot (le_refl _) w.block hb' hb0]
          refine Returns.of_endBulk (returns_walk i₀ fuel (w.wrap hb' hb0 hc hclear) ?_)
          have hpages : ({ st with ramBulkStage := false } : RamState α).dirtyPages =
              st.dirtyPages := rfl
          unfold movesLeft at hf ⊢
          rw [if_pos rfl, hpages]
          rw [hc, if_neg (by decide)] at hf
          omega

/-! ## The bulk stage -/

/-- The walk of the bulk stage has reached the last page of the last block; that page is dirty again
and nothing else is. The call clears its bit at the end of the round and does not send it. -/
def LosesLastPage (st : RamState α) : Prop :=
  st.ramBulkStage = true ∧ ∃ (i : ℕ) (b : RAMBlock), st.ramList.blocks[i]? = some b ∧
    st.ramList.blocks.length = i + 1 ∧ st.lastSeenBlock = some b.ptr ∧
    0 < st.lastOffset ∧ st.lastOffset + 1 = b.length ∧
    st.DirtyAt i st.lastOffset ∧ ∀ j p, st.DirtyAt j p → j = i ∧ p = st.lastOffset

section Bulk

variable [DecidableEq α] {c : XbzrleCodec α} {lastStage : Bool} {env : SaveEnv}
  {st : RamState α} {i fuel : ℕ} {b : RAMBlock} {n : ℤ}

/-- In the bulk stage the first page of a block behind the walk is sent. -/
theorem returns_bulk_block (hbulk : st.ramBulkStage = true)
    (hcache : st.useXbzrle = true → st.cache.isSome = true)
    (hempty : st.useXbzrle = true → ∀ x, cachedPage c st x = none)
    (hb : st.ramList.blocks[i]? = some b) (hall : ∀ j b' p, st.ramList.blocks[j]? = some b' →
      p < b'.length → i ≤ j → st.migrationBitmap (b'.offset + p) = true) :
    Returns c env st (ramSaveBlockLoop c lastStage env (fuel + 1) st b 0 false n) := by
  obtain ⟨off, -, hclear, hfound⟩ := findAndReset_spec (Nat.zero_le b.length)
    (.inr rfl : st.ramBulkStage = false ∨ 0 = 0)
  have hfirst := hall i b 0 hb b.length_pos (le_refl _)
  obtain rfl : off = 0 := by
    by_contra hne
    rw [hclear 0 (le_refl _) (by omega)] at hfirst
    cases hfirst
  rcases hfound with ⟨hoff, hbit, hfind⟩ | ⟨hoff, -⟩
  · refine returns_save hb hoff hbit hcache (fun _ => ⟨hempty, fun j b' p hj hp hlt =>
      hall j b' p hj hp (by omega)⟩) hfind (fun h => nomatch h.1) fun hb' => ?_
    rw [hbulk] at hb'
    cases hb'
  · have := b.length_pos
    omega

/-- The first block of the walk has no dirty page left that the walk looks at : it goes on to the
next block, or ends the bulk stage and starts over. -/
theorem returns_bulk_leave {start off} (hinv : SaveInv c st) (hbulk : st.ramBulkStage = true)
    (hb : st.ramList.blocks[i]? = some b) (hseen : st.lastSeenBlock = some b.ptr)
    (hfind : migrationBitmapFindAndResetDirty st b start = (st, off)) (hoff : b.length ≤ off)
    (hfuel : st.dirtyPages.card + i + 1 < fuel) (hrest : st.ramList.blocks.length = i + 1 →
      (∀ p, st.lastOffset ≤ p → ¬st.DirtyAt i p) ∨
        ∃ j p, st.DirtyAt j p ∧ Before i st.lastOffset j p) :
    Returns c env st (ramSaveBlockLoop c lastStage env fuel st b start false 0) := by
  obtain ⟨fuel, rfl⟩ : ∃ f, fuel = f + 2 := ⟨fuel - 2, by omega⟩
  obtain ⟨hempty, hbehind⟩ := hinv.bulk hbulk
  obtain ⟨hlast, hdirty⟩ := hbehind i b hb hseen
  have hlen := (List.getElem?_eq_some_iff.mp hb).1
  have hend : ¬RoundEnds st b off false := fun h => nomatch h.1
  cases hb' : st.ramList.blocks[i + 1]? with
  | some b' =>
    rw [ramSaveBlockLoop_next hfind hend hoff hb hb']
    exact returns_bulk_block hbulk hinv.cache hempty hb' fun j b'' p hj hp hlt =>
      hdirty j b'' p hj hp (by omega)
  | none =>
    have hlen' := getElem?_eq_none_iff.mp hb'
    obtain ⟨b', hb0⟩ : ∃ b', st.ramList.blocks[0]? = some b' :=
      ⟨_, getElem?_eq_getElem (by omega)⟩
    rw [ramSaveBlockLoop_wrap hfind hend hoff hb hb' hb0]
    have hwalk : Walk c { st with ramBulkStage := false } i 0 b' 0 true := by
      refine ⟨⟨b, hb, hseen, hlast.le⟩, hb0, Nat.zero_le _, by rw [if_pos rfl]; omega, hinv.cache,
        rfl, ?_⟩
      rcases hrest (by omega) with hclean | ⟨j, p, hdirty', hbefore⟩
      · refine .inl fun j p hpassed hdirty' => ?_
        have hdirty' : st.DirtyAt j p := hdirty'
        obtain ⟨b'', hj, -⟩ := hdirty'
        have hj := (List.getElem?_eq_some_iff.mp hj).1
        have hpassed : Passed i st.lastOffset true 0 0 j p := hpassed
        unfold Passed Behind Before at hpassed
        rw [if_pos rfl] at hpassed
        obtain ⟨rfl, hp⟩ : i = j ∧ st.lastOffset ≤ p := by omega
        exact hclean p hp hdirty'
      · exact .inr ⟨rfl, hempty, j, p, hdirty', by unfold Before; omega, hbefore⟩
    refine Returns.of_endBulk (returns_walk i (fuel + 1) hwalk ?_)
    have hpages : ({ st with ramBulkStage := false } : RamState α).dirtyPages = st.dirtyPages := rfl
    unfold movesLeft
    rw [if_pos rfl, hpages]
    omega

/-- A call from a state that the migration can reach. -/
theorem ramSaveBlock_spec (lastStage : Bool) (env : SaveEnv) (hinv : SaveInv c st)
    (hloss : ¬LosesLastPage st) (hne : st.ramList.blocks ≠ []) :
    Returns c env st (ramSaveBlock c lastStage env st) := by
  have hcard : st.dirtyPages.card ≤ st.ramList.lastRamOffset := by
    have h := card_filter_le (Finset.range st.ramList.lastRamOffset)
      fun x => st.migrationBitmap x = true
    rwa [card_range] at h
  unfold ramSaveBlock firstBlock rounds
  cases hs : st.lastSeenBlock with
  | none =>
    obtain ⟨hbulk, hoff, hall⟩ := hinv.start hs
    obtain ⟨b, hb⟩ : ∃ b, st.ramList.blocks[0]? = some b :=
      ⟨_, getElem?_eq_getElem (length_pos_iff.mpr hne)⟩
    rw [head?_eq_getElem?, hb, hoff]
    exact returns_bulk_block hbulk hinv.cache (hinv.bulk hbulk).1 hb
      fun j b' p hj hp _ => hall j b' p hj hp
  | some ptr =>
    obtain ⟨i, b, hb, rfl, hle⟩ := hinv.seen ptr hs
    have hlen := (List.getElem?_eq_some_iff.mp hb).1
    dsimp only
    rw [index_eq hb, hb]
    show Returns c env st (ramSaveBlockLoop c lastStage env _ st b st.lastOffset false 0)
    cases hbulk : st.ramBulkStage with
    | false =>
      refine returns_walk i _ ⟨⟨b, hb, hs, hle⟩, hb, hle, ?_, hinv.cache, hbulk, ?_⟩ ?_
      · exact ⟨le_refl _, fun _ => le_refl _⟩
      · refine .inl fun j p hpassed => ?_
        unfold Passed Behind Before at hpassed
        rw [if_neg (by decide)] at hpassed
        omega
      · unfold movesLeft
        rw [if_neg (by decide)]
        omega
    | true =>
      obtain ⟨hempty, hbehind⟩ := hinv.bulk hbulk
      obtain ⟨hlast, hdirty⟩ := hbehind i b hb hs
      rcases Nat.eq_zero_or_pos st.lastOffset with h0 | hpos
      · -- At the start of a block the bits are looked at.
        rw [h0] at hdirty ⊢
        obtain ⟨off, -, hclear, hfound⟩ := findAndReset_spec (Nat.zero_le b.length)
          (.inr rfl : st.ramBulkStage = false ∨ 0 = 0)
        rcases hfound with ⟨hoff, hbit, hfind⟩ | ⟨rfl, hfind⟩
        · refine returns_save hb hoff hbit hinv.cache (fun _ => ⟨hempty, fun j b' p hj hp hlt =>
            hdirty j b' p hj hp (by omega)⟩) hfind (fun h => nomatch h.1) fun hb' => ?_
          rw [hbulk] at hb'
          cases hb'
        · refine returns_bulk_leave hinv hbulk hb hs hfind (le_refl _) (by omega) fun _ =>
            .inl fun p _ => not_dirtyAt hb (hclear p (Nat.zero_le _))
      · have hfind := findAndReset_bulk (b := b) hbulk hpos
        split_ifs at hfind with hlt
        · refine returns_save hb hlt (hdirty i b _ hb hlt (.inr ⟨rfl, Nat.lt_succ_self _⟩))
            hinv.cache (fun _ => ⟨hempty, fun j b' p hj hp h =>
              hdirty j b' p hj hp (by omega)⟩) hfind (fun h => nomatch h.1) fun hb' => ?_
          rw [hbulk] at hb'
          cases hb'
        · refine returns_bulk_leave hinv hbulk hb hs hfind (by omega) (by omega) fun hl => ?_
          by_cases hd : st.DirtyAt i st.lastOffset
          · -- The skipped page is dirty; the state is not the one that loses it.
            have hother : ¬∀ j p, st.DirtyAt j p → j = i ∧ p = st.lastOffset := fun h =>
              hloss ⟨hbulk, i, b, hb, hl, hs, hpos, by omega, hd, h⟩
            push Not at hother
            obtain ⟨j, p, hjp, hne'⟩ := hother
            refine .inr ⟨j, p, hjp, ?_⟩
            obtain ⟨b', hj, hp, -⟩ := hjp
            have hjl := (List.getElem?_eq_some_iff.mp hj).1
            unfold Before
            by_cases hji : j = i
            · subst hji
              obtain rfl := some.inj (hb.symm.trans hj)
              omega
            · omega
          · refine .inl fun p hp hd' => hd ?_
            obtain ⟨hp', -⟩ := (dirtyAt_iff hb).mp hd'
            obtain rfl : p = st.lastOffset := by omega
            exact hd'

end Bulk

end QemuArm
