import QemuArm.RamSave

/-!
# What one call of `ram_save_block` does

`migrationBitmapSync` moves dirty bits to the migration bitmap and loses none (`Synced`). A dirty
page is put on the stream or is equal to its cached copy (`ramSavePage_outcome`).
-/

namespace QemuArm

open List Option PageCache

variable {α : Type}

/-! ## Moving dirty bits -/

/-- `st'` is `st` after some dirty bits were moved to the migration bitmap. -/
structure Synced (st st' : RamState α) : Prop where
  frame : ∃ dirty bits n, st' = { st with
    dirtyMemory := dirty, migrationBitmap := bits, migrationDirtyPages := n }
  keep : ∀ x, st.migrationBitmap x = true → st'.migrationBitmap x = true
  moved : ∀ x < 2 ^ 31, st.dirtyMemory x = true →
    st'.dirtyMemory x = true ∨ st'.migrationBitmap x = true
  dirty_of : ∀ x, st'.dirtyMemory x = true → st.dirtyMemory x = true

open Synced

variable {st : RamState α}

namespace Synced

theorem ramList_eq {st'} (h : Synced st st') : st'.ramList = st.ramList := by
  obtain ⟨_, _, _, rfl⟩ := h.frame
  rfl

theorem refl (st : RamState α) : Synced st st :=
  ⟨⟨_, _, _, rfl⟩, fun _ h => h, fun _ _ h => .inl h, fun _ h => h⟩

theorem trans {st₁ st₂} (h₁ : Synced st st₁) (h₂ : Synced st₁ st₂) : Synced st st₂ := by
  refine ⟨?_, fun x hx => h₂.keep x (h₁.keep x hx), fun x hlt hx => ?_,
    fun x hx => h₁.dirty_of x (h₂.dirty_of x hx)⟩
  · obtain ⟨d₁, b₁, n₁, rfl⟩ := h₁.frame
    obtain ⟨d₂, b₂, n₂, rfl⟩ := h₂.frame
    exact ⟨_, _, _, rfl⟩
  · rcases h₁.moved x hlt hx with h | h
    · exact h₂.moved x hlt h
    · exact .inr (h₂.keep x h)

theorem foldl {ι : Type} {f} (hf : ∀ st i, Synced st (f st i)) :
    ∀ (is : List ι) (st : RamState α), Synced st (is.foldl f st)
  | [], st => refl st
  | i :: is, st => (hf st i).trans (foldl hf is (f st i))

/-- A bit that one of the steps clears stays clear. -/
theorem foldl_clear {ι : Type} {f} (hf : ∀ st i, Synced st (f st i)) {i : ι} {x : ℕ}
    (hi : ∀ st, (f st i).dirtyMemory x = false) :
    ∀ (is : List ι) (st : RamState α), i ∈ is → (is.foldl f st).dirtyMemory x = false
  | j :: is, st, hmem => by
    rcases mem_cons.mp hmem with rfl | hmem
    · by_contra hne
      have hx := (foldl hf is (f st i)).dirty_of x (by simpa using hne)
      rw [hi st] at hx
      cases hx
    · exact foldl_clear hf hi is (f st j) hmem

end Synced

theorem synced_syncWord (st : RamState α) (k : ℕ) : Synced st (syncWord st k) := by
  unfold syncWord
  split
  · refine ⟨⟨_, _, _, rfl⟩, fun x hx => ?_, fun x _ hx => ?_, fun x hx => ?_⟩
    · dsimp only
      split <;> simp [hx]
    · dsimp only
      split <;> simp [hx]
    · dsimp only at hx
      split at hx
      · cases hx
      · exact hx
  · exact refl st

theorem syncWord_clear (st : RamState α) {k x} (hx : x / 64 = k) :
    (syncWord st k).dirtyMemory x = false := by
  unfold syncWord
  split
  · exact if_pos hx
  · rename_i h
    rw [List.any_eq_true, not_exists] at h
    have hx' := h x
    rw [mem_range'_1] at hx'
    by_contra hne
    exact hx' ⟨by omega, by simpa using hne⟩

theorem synced_syncPage (st : RamState α) (page : ℕ) : Synced st (syncPage st page) := by
  have hclear : ∀ x, Function.update st.dirtyMemory page false x = true →
      st.dirtyMemory x = true := by
    intro x hx
    by_cases h : x = page
    · simp [h] at hx
    · simpa [h] using hx
  unfold syncPage migrationBitmapSetDirty
  split
  · dsimp only
    split
    · rename_i hneg
      refine ⟨⟨_, _, _, rfl⟩, fun _ hx => hx, fun x hlt hx => .inl ?_, hclear⟩
      have hne : x ≠ page := by omega
      simpa [hne] using hx
    · refine ⟨⟨_, _, _, rfl⟩, fun x hx => ?_, fun x hlt hx => ?_, hclear⟩
      · show Function.update st.migrationBitmap (page % 2 ^ 32) true x = true
        rw [Function.update_apply, hx, ite_self]
      · by_cases h : x = page
        · have hnr : page % 2 ^ 32 = x := by omega
          exact .inr (by rw [hnr]; exact Function.update_self ..)
        · exact .inl (by simpa [h] using hx)
  · exact refl st

theorem syncPage_clear (st : RamState α) (page : ℕ) :
    (syncPage st page).dirtyMemory page = false := by
  unfold syncPage migrationBitmapSetDirty
  split
  · dsimp only
    split <;> exact Function.update_self ..
  · rename_i h
    simpa using h

theorem synced_migrationBitmapSyncRange (st : RamState α) (start length : ℕ) :
    Synced st (migrationBitmapSyncRange st start length) := by
  unfold migrationBitmapSyncRange
  dsimp only
  split
  · exact foldl synced_syncWord _ st
  · exact foldl synced_syncPage _ st

theorem migrationBitmapSyncRange_clear (st : RamState α) {start length x : ℕ} (hlo : start ≤ x)
    (hhi : x < start + length) :
    (migrationBitmapSyncRange st start length).dirtyMemory x = false := by
  unfold migrationBitmapSyncRange
  dsimp only
  split
  · refine foldl_clear synced_syncWord (fun st => syncWord_clear st rfl) _ st ?_
    rw [mem_range'_1]
    omega
  · refine foldl_clear synced_syncPage (fun st => syncPage_clear st x) _ st ?_
    rw [mem_range'_1]
    omega

/-- The step of `migration_bitmap_sync` for one block. -/
def syncBlock (st : RamState α) (b : RAMBlock) : RamState α :=
  migrationBitmapSyncRange st b.offset b.length

theorem synced_syncBlock (st : RamState α) (b : RAMBlock) : Synced st (syncBlock st b) :=
  synced_migrationBitmapSyncRange st b.offset b.length

theorem synced_migrationBitmapSync (st : RamState α) : Synced st (migrationBitmapSync st) := by
  exact foldl synced_syncBlock _ st

variable {b : RAMBlock}

/-- After a synchronisation no page of a block is dirty in `DIRTY_MEMORY_MIGRATION`. -/
theorem migrationBitmapSync_clear {o : ℕ} (hb : b ∈ st.ramList.blocks) (ho : o < b.length) :
    (migrationBitmapSync st).dirtyMemory (b.offset + o) = false := by
  refine foldl_clear synced_syncBlock (fun st => ?_) _ st hb
  exact migrationBitmapSyncRange_clear st (Nat.le_add_right _ _) (by omega)

/-! ## Finding the next dirty page -/

variable {offset : ℕ}

theorem findNextBit_spec (bits : ℕ → Bool) (size offset : ℕ) :
    findNextBit bits size offset ≤ size ∧
      (∀ x, offset ≤ x → x < findNextBit bits size offset → bits x = false) ∧
      (findNextBit bits size offset < size → offset ≤ findNextBit bits size offset ∧
        bits (findNextBit bits size offset) = true) := by
  unfold findNextBit
  cases hf : (List.range' offset (size - offset)).find? bits with
  | none =>
    rw [find?_eq_none] at hf
    refine ⟨le_refl _, fun x hlo hhi => ?_, fun hlt => absurd hlt (lt_irrefl _)⟩
    have hx := hf x (by rw [mem_range'_1]; simp only [getD_none] at hhi; omega)
    simpa using hx
  | some y =>
    have hy := find?_some hf
    have hmem := mem_of_find?_eq_some hf
    rw [mem_range'_1] at hmem
    rw [find?_range'_eq_some] at hf
    simp only [getD_some]
    refine ⟨by omega, fun x hlo hhi => ?_, fun _ => ⟨hmem.1, hy⟩⟩
    have hx := hf.2.2 x hlo hhi
    simpa using hx

/-- Outside the bulk stage, or at the start of a block, the page found is the next dirty one of
the block; it is no longer dirty. -/
theorem findAndReset_spec {start} (hs : start ≤ b.length)
    (hb : st.ramBulkStage = false ∨ start = 0) :
    ∃ off, start ≤ off ∧ (∀ o, start ≤ o → o < off → st.migrationBitmap (b.offset + o) = false) ∧
      ((off < b.length ∧ st.migrationBitmap (b.offset + off) = true ∧
          migrationBitmapFindAndResetDirty st b start = (st.clearDirty (b.offset + off), off)) ∨
        (off = b.length ∧ migrationBitmapFindAndResetDirty st b start = (st, off))) := by
  obtain ⟨hhi, hclear, hset⟩ := findNextBit_spec st.migrationBitmap (b.offset + b.length)
    (b.offset + start)
  obtain ⟨next, hnext⟩ : ∃ n, n = findNextBit st.migrationBitmap (b.offset + b.length)
    (b.offset + start) := ⟨_, rfl⟩
  rw [← hnext] at hhi hclear hset
  have hlo : b.offset + start ≤ next := by
    by_contra hlt
    exact hlt (hset (by omega)).1
  have hcond : ¬(st.ramBulkStage = true ∧ b.offset < b.offset + start) := by
    rintro ⟨h1, h2⟩
    rcases hb with h | h
    · rw [h] at h1
      cases h1
    · omega
  have hbase : b.offset + (next - b.offset) = next := by omega
  refine ⟨next - b.offset, by omega, fun o ho ho' => hclear _ (by omega) (by omega), ?_⟩
  unfold migrationBitmapFindAndResetDirty
  dsimp only
  rw [if_neg hcond, ← hnext, hbase]
  by_cases hlt : next < b.offset + b.length
  · exact .inl ⟨by omega, (hset hlt).2, by rw [if_pos hlt]⟩
  · exact .inr ⟨by omega, by rw [if_neg hlt]⟩

/-- In the bulk stage, inside a block, the next page is taken without a look at its bit. -/
theorem findAndReset_bulk {start} (hb : st.ramBulkStage = true) (hs : 0 < start) :
    migrationBitmapFindAndResetDirty st b start =
      (if start + 1 < b.length then st.clearDirty (b.offset + (start + 1)) else st, start + 1) := by
  have hcond : st.ramBulkStage = true ∧ b.offset < b.offset + start := ⟨hb, by omega⟩
  unfold migrationBitmapFindAndResetDirty
  dsimp only
  rw [if_pos hcond, show b.offset + start + 1 = b.offset + (start + 1) by omega]
  by_cases h : start + 1 < b.length
  · rw [if_pos (by omega), if_pos h, Nat.add_sub_cancel_left]
  · rw [if_neg (by omega), if_neg h, Nat.add_sub_cancel_left]

/-! ## Sending a page -/

/-- The cached copy of a page. -/
def cachedPage (c : XbzrleCodec α) (st : RamState α) (page : ℕ) : Option α :=
  st.cache.bind fun cache => cache.cached (page * c.pageSize)

/-- What follows the header gives the receiver the page. -/
def Carries (c : XbzrleCodec α) (st : RamState α) (page : ℕ) : PageBody α → Prop
  | .compress => st.mem page = c.zero
  | .page data => data = st.mem page
  | .xbzrle bytes => ∃ old, cachedPage c st page = some old ∧
      c.encode old (st.mem page) = .delta bytes
  | .control data => data = st.mem page

theorem carries_page (c : XbzrleCodec α) (st : RamState α) (page : ℕ) :
    Carries c st page (.page (st.mem page)) := rfl

theorem carries_control (c : XbzrleCodec α) (st : RamState α) (page : ℕ) :
    Carries c st page (.control (st.mem page)) := rfl

variable {c : XbzrleCodec α}

theorem carries_compress {page} (h : st.mem page = c.zero) : Carries c st page .compress := h

/-- The record of the page at `offset` in `block`. -/
structure RecordOf (c : XbzrleCodec α) (st : RamState α) (block : RAMBlock) (offset : ℕ)
    (r : PageRecord α) : Prop where
  offset_eq : r.offset = offset
  names : r.block = some block.idstr ∨ r.block = none ∧ st.lastSentBlock = some block.ptr
  carries : Carries c st (block.offset + offset) r.body

variable {st' : RamState α}

theorem cachedPage_congr (h : st'.cache = st.cache) (page : ℕ) :
    cachedPage c st' page = cachedPage c st page := by
  unfold cachedPage
  rw [h]

variable {block : RAMBlock}

/-- A record is about the memory, the cache and the block last sent. -/
theorem RecordOf.congr {r} (h : RecordOf c st block offset r)
    (hm : st'.mem = st.mem) (hc : st'.cache = st.cache)
    (hs : st'.lastSentBlock = st.lastSentBlock) : RecordOf c st' block offset r := by
  refine ⟨h.offset_eq, by rw [hs]; exact h.names, ?_⟩
  have hcarries := h.carries
  cases hbody : r.body with
  | compress | page data | control data =>
    rw [hbody] at hcarries
    unfold Carries
    rw [hm]
    exact hcarries
  | xbzrle bytes =>
    rw [hbody] at hcarries
    unfold Carries
    rw [hm, cachedPage_congr hc]
    exact hcarries

/-- The cache after a page was stored at `addr`. -/
def Stores (cache cache' : PageCache α) (addr : ℕ) (data : α) : Prop :=
  ∀ b, cache'.cached b =
    if b = addr then some data
    else if cache.cacheGetCachePos b = cache.cacheGetCachePos addr then none
    else cache.cached b

/-- What `ram_save_block` does with a dirty page : the cache, the records that it puts on the
stream and `bytes_sent`. -/
inductive PageOutcome (c : XbzrleCodec α) (lastStage : Bool) (env : SaveEnv) (st : RamState α)
    (block : RAMBlock) (offset : ℕ) : Option (PageCache α) → List (PageRecord α) → ℤ → Prop
  | identical (hx : st.useXbzrle = true) (hb : st.ramBulkStage = false)
      (hsame : cachedPage c st (block.offset + offset) = some (st.mem (block.offset + offset))) :
      PageOutcome c lastStage env st block offset st.cache [] 0
  | kept {r : PageRecord α} {n : ℤ} (hn : 0 < n) (hr : RecordOf c st block offset r)
      (hwhy : st.ramBulkStage = true ∨ st.useXbzrle = false ∨ lastStage = true ∨
        env.control (block.offset + offset) ≠ .notSupp ∨
        cachedPage c st (block.offset + offset) = none) :
      PageOutcome c lastStage env st block offset st.cache [r] n
  | stored {cache cache' : PageCache α} {r : PageRecord α} {n : ℤ} (hn : 0 < n)
      (hx : st.useXbzrle = true) (hb : st.ramBulkStage = false)
      (hr : RecordOf c st block offset r) (hc : st.cache = some cache)
      (hs : Stores cache cache' ((block.offset + offset) * c.pageSize)
        (st.mem (block.offset + offset))) :
      PageOutcome c lastStage env st block offset (some cache') [r] n

theorem hdrSize_pos (st : RamState α) (block : RAMBlock) : 0 < st.hdrSize block := by
  unfold RamState.hdrSize
  split <;> omega

theorem page_ne_noAddr (c : XbzrleCodec α) (page : ℕ) : page * c.pageSize ≠ noAddr := by
  obtain ⟨k, hk⟩ := c.pageSize_even
  unfold noAddr
  rw [hk, mul_left_comm]
  omega

/-- The record that `put` adds to the stream. -/
theorem recordOf_put {body} (h : Carries c st (block.offset + offset) body) :
    RecordOf c st block offset
      ⟨if st.lastSentBlock = some block.ptr then none else some block.idstr, offset, body⟩ := by
  refine ⟨rfl, ?_, h⟩
  split
  · rename_i h
    exact .inr ⟨rfl, h⟩
  · exact .inl rfl

/-- A page that the encoder did not turn into a delta is sent as it is, from the cache outside the
last stage. -/
inductive XbzrleOutcome (c : XbzrleCodec α) (lastStage : Bool) (env : SaveEnv) (st : RamState α)
    (block : RAMBlock) (offset : ℕ) : RamState α → ℤ → Prop
  | missed (hl : lastStage = true) (hc : cachedPage c st (block.offset + offset) = none) :
      XbzrleOutcome c lastStage env st block offset st (-1)
  | noMemory (hl : lastStage = false) (ha : env.alloc = false)
      (hc : st.cache.bind (fun cache => cache.getCachedData ((block.offset + offset) * c.pageSize))
        = none) :
      XbzrleOutcome c lastStage env st block offset st (-1)
  | stored {cache cache' : PageCache α} (hc : st.cache = some cache)
      (hs : Stores cache cache' ((block.offset + offset) * c.pageSize)
        (st.mem (block.offset + offset))) :
      XbzrleOutcome c lastStage env st block offset { st with cache := some cache' } (-1)
  | identical
      (hsame : cachedPage c st (block.offset + offset) = some (st.mem (block.offset + offset))) :
      XbzrleOutcome c lastStage env st block offset st 0
  | delta {n : ℤ} {bytes : List Byte} (hn : 0 < n) (hl : lastStage = true)
      (hd : Carries c st (block.offset + offset) (.xbzrle bytes)) :
      XbzrleOutcome c lastStage env st block offset (st.put block offset (.xbzrle bytes)) n
  | deltaStored {n : ℤ} {bytes : List Byte} {cache cache' : PageCache α} (hn : 0 < n)
      (hd : Carries c st (block.offset + offset) (.xbzrle bytes)) (hc : st.cache = some cache)
      (hs : Stores cache cache' ((block.offset + offset) * c.pageSize)
        (st.mem (block.offset + offset))) :
      XbzrleOutcome c lastStage env st block offset
        (RamState.put { st with cache := some cache' } block offset (.xbzrle bytes)) n

theorem getCachedData_of_cacheInsert_none {cache : PageCache α} {alloc : Bool} {addr : ℕ}
    {data : α} (h : cache.cacheInsert alloc addr data = none) :
    cache.getCachedData addr = none ∧ alloc = false := by
  unfold cacheInsert at h
  dsimp only at h
  split at h
  · rename_i hnone
    rw [Bool.and_eq_true] at hnone
    exact ⟨isNone_iff_eq_none.mp hnone.1, by simpa using hnone.2⟩
  · cases h

variable {env : SaveEnv}

/-- What `save_xbzrle_page` does to the cache and to the stream. -/
theorem saveXbzrlePage_outcome {lastStage : Bool} {n : ℤ}
    (h : saveXbzrlePage c lastStage env st block offset = some (st', n)) :
    XbzrleOutcome c lastStage env st block offset st' n := by
  unfold saveXbzrlePage at h
  cases hc : st.cache with
  | none =>
    rw [hc] at h
    cases h
  | some cache =>
    simp only [hc, bind_eq_bind, bind_some] at h
    by_cases hcached : cache.cacheIsCached ((block.offset + offset) * c.pageSize) = true
    · rw [if_neg (not_not_intro hcached)] at h
      obtain ⟨old, hold, h⟩ := bind_eq_some_iff.mp h
      have hpage : cachedPage c st (block.offset + offset) = some old := by
        unfold cachedPage cached
        rw [hc, bind_some, if_pos hcached, hold]
      have hs : Stores cache
          (cache.updateCachedData ((block.offset + offset) * c.pageSize)
            (st.mem (block.offset + offset))) ((block.offset + offset) * c.pageSize)
          (st.mem (block.offset + offset)) :=
        cached_updateCachedData hcached
      cases henc : c.encode old (st.mem (block.offset + offset)) with
      | unchanged =>
        simp only [henc, Option.some.injEq, Prod.mk.injEq] at h
        obtain ⟨rfl, rfl⟩ := h
        exact .identical (by rw [hpage, c.eq_of_unchanged henc])
      | overflow =>
        simp only [henc, Option.some.injEq, Prod.mk.injEq] at h
        obtain ⟨rfl, rfl⟩ := h
        exact .stored hc hs
      | delta bytes =>
        simp only [henc, Option.some.injEq, Prod.mk.injEq] at h
        have hpos := hdrSize_pos st block
        cases hl : lastStage with
        | true =>
          rw [hl] at h
          obtain ⟨rfl, rfl⟩ := h
          exact .delta (by omega) rfl ⟨old, hpage, henc⟩
        | false =>
          rw [hl] at h
          obtain ⟨rfl, rfl⟩ := h
          exact .deltaStored (by omega) ⟨old, hpage, henc⟩ hc hs
    · rw [if_pos hcached] at h
      cases hl : lastStage with
      | true =>
        rw [hl] at h
        cases h
        refine .missed rfl ?_
        unfold cachedPage cached
        rw [hc, bind_some, if_neg hcached]
      | false =>
        rw [hl] at h
        cases hi : cache.cacheInsert env.alloc ((block.offset + offset) * c.pageSize)
            (st.mem (block.offset + offset)) with
        | none =>
          rw [hi] at h
          cases h
          obtain ⟨hdata, halloc⟩ := getCachedData_of_cacheInsert_none hi
          exact .noMemory rfl halloc (by rw [hc, bind_some, hdata])
        | some cache' =>
          rw [hi] at h
          cases h
          exact .stored hc (cached_cacheInsert hi)

theorem exists_xbzrleCacheZeroPage (c : XbzrleCodec α) (env : SaveEnv) (st : RamState α)
    (page : ℕ) (hcache : st.useXbzrle = true → st.cache.isSome = true) :
    ∃ st', xbzrleCacheZeroPage c env st page = some st' := by
  unfold xbzrleCacheZeroPage
  split
  · exact ⟨_, rfl⟩
  · rename_i h
    rw [not_or, not_not] at h
    obtain ⟨cache, hc⟩ := isSome_iff_exists.mp (hcache h.2)
    rw [hc]
    simp only [bind_eq_bind, bind_some]
    split <;> exact ⟨_, rfl⟩

theorem exists_saveXbzrlePage (c : XbzrleCodec α) (lastStage : Bool) (env : SaveEnv)
    (block : RAMBlock) (offset : ℕ) (hcache : st.cache.isSome = true) :
    ∃ r, saveXbzrlePage c lastStage env st block offset = some r := by
  obtain ⟨cache, hc⟩ := isSome_iff_exists.mp hcache
  unfold saveXbzrlePage
  simp only [hc, bind_eq_bind, bind_some]
  split
  · split
    · exact ⟨_, rfl⟩
    · split <;> exact ⟨_, rfl⟩
  · rename_i hcached
    obtain ⟨old, hold⟩ := exists_cached_of_cacheIsCached (not_not.mp hcached) (page_ne_noAddr c _)
    rw [hold, bind_some]
    split <;> exact ⟨_, rfl⟩

variable [DecidableEq α]

/-- A page goes to the stream as one of the kinds of `PageOutcome`. -/
theorem ramSavePage_outcome {lastStage : Bool} {n : ℤ}
    (h : ramSavePage c lastStage env st block offset = some (st', n)) :
    ∃ cache' recs, PageOutcome c lastStage env st block offset cache' recs n ∧
      st' = { st with cache := cache', stream := st.stream ++ recs } := by
  have hpos := hdrSize_pos st block
  unfold ramSavePage at h
  dsimp only at h
  cases hctl : env.control (block.offset + offset) with
  | taken =>
    rw [hctl] at h
    cases h
    exact ⟨_, _, .kept (by decide) ⟨rfl, .inl rfl, carries_control c st _⟩ (by simp [hctl]), rfl⟩
  | failed =>
    rw [hctl] at h
    cases h
    exact ⟨_, _, .kept (by omega) (recordOf_put (carries_page c st _)) (by simp [hctl]), rfl⟩
  | notSupp =>
    rw [hctl] at h
    dsimp only at h
    split at h
    · rename_i hz
      obtain ⟨st₁, h₁, h⟩ := bind_eq_some_iff.mp h
      cases h
      unfold xbzrleCacheZeroPage at h₁
      split at h₁
      · rename_i hoff
        cases h₁
        refine ⟨_, _, .kept (by omega) (recordOf_put (carries_compress hz)) ?_, rfl⟩
        rcases hoff with hb | hx
        · exact .inl hb
        · exact .inr (.inl (Bool.eq_false_iff.mpr hx))
      · rename_i hon
        have hon : st.ramBulkStage = false ∧ st.useXbzrle = true := by
          simpa [RamState.put] using hon
        cases hc : st.cache with
        | none =>
          simp only [RamState.put, hc] at h₁
          cases h₁
        | some cache =>
          simp only [RamState.put, hc, bind_eq_bind, bind_some] at h₁
          cases hi : cache.cacheInsert env.alloc ((block.offset + offset) * c.pageSize) c.zero with
          | none =>
            rw [hi] at h₁
            cases h₁
            refine ⟨_, _, .kept (by omega) (recordOf_put (carries_compress hz)) ?_, by rw [hc]⟩
            refine .inr (.inr (.inr (.inr ?_)))
            unfold cachedPage cached
            rw [hc, bind_some, (getCachedData_of_cacheInsert_none hi).1, ite_self]
          | some cache' =>
            rw [hi] at h₁
            cases h₁
            refine ⟨_, _, .stored (by omega) hon.2 hon.1 (recordOf_put (carries_compress hz)) hc ?_,
              rfl⟩
            rw [hz]
            exact cached_cacheInsert hi
    · split at h
      · rename_i hx
        obtain ⟨⟨st₁, sent⟩, h₁, h⟩ := bind_eq_some_iff.mp h
        cases saveXbzrlePage_outcome h₁ with
        | missed hl hc =>
          rw [hl, if_pos rfl] at h
          cases h
          exact ⟨_, _, .kept (by omega) (recordOf_put (carries_page c st _)) (by simp [hl]), rfl⟩
        | noMemory hl ha hc =>
          rw [if_pos rfl, hl, hc] at h
          cases h
        | stored hc hs =>
          have hpage := hs ((block.offset + offset) * c.pageSize)
          rw [if_pos rfl] at hpage
          have hdata := (getCachedData_of_cached hpage).2
          rw [bind_some, hdata, ite_self] at h
          cases h
          exact ⟨_, _, .stored (by omega) hx.2 (by simpa using hx.1)
            (recordOf_put (carries_page c st _)) hc hs, rfl⟩
        | identical hsame =>
          cases h
          exact ⟨_, _, .identical hx.2 (by simpa using hx.1) hsame, by simp⟩
        | delta hn hl hd =>
          rw [if_neg (by omega)] at h
          cases h
          exact ⟨_, _, .kept hn (recordOf_put hd) (by simp [hl]), rfl⟩
        | deltaStored hn hd hc hs =>
          rw [if_neg (by omega)] at h
          cases h
          exact ⟨_, _, .stored hn hx.2 (by simpa using hx.1) (recordOf_put hd) hc hs, rfl⟩
      · rename_i hx
        cases h
        refine ⟨_, _, .kept (by omega) (recordOf_put (carries_page c st _)) ?_, rfl⟩
        rw [not_and_or] at hx
        rcases hx with hb | hx
        · exact .inl (by simpa using hb)
        · exact .inr (.inl (by simpa using hx))

/-- With memory for the cache, a dirty page is always dealt with. -/
theorem exists_ramSavePage (c : XbzrleCodec α) (lastStage : Bool) (st : RamState α)
    (block : RAMBlock) (offset : ℕ) (halloc : env.alloc = true)
    (hcache : st.useXbzrle = true → st.cache.isSome = true) :
    ∃ r, ramSavePage c lastStage env st block offset = some r := by
  unfold ramSavePage
  dsimp only
  cases env.control (block.offset + offset) with
  | taken | failed => exact ⟨_, rfl⟩
  | notSupp =>
    dsimp only
    split
    · obtain ⟨st', h⟩ := exists_xbzrleCacheZeroPage c env (st.put block offset .compress)
        (block.offset + offset) hcache
      exact ⟨_, by rw [h]; rfl⟩
    · split
      · rename_i hx
        obtain ⟨⟨st', sent⟩, h⟩ := exists_saveXbzrlePage c lastStage env block offset (hcache hx.2)
        rw [h]
        simp only [bind_eq_bind, bind_some]
        split
        · cases hl : lastStage with
          | true => exact ⟨_, rfl⟩
          | false =>
            have hout := saveXbzrlePage_outcome h
            rw [hl] at hout
            cases hout with
            | missed hl' => cases hl'
            | noMemory _ ha => rw [halloc] at ha; cases ha
            | stored hc hs =>
              have hpage := hs ((block.offset + offset) * c.pageSize)
              rw [if_pos rfl] at hpage
              rw [bind_some, (getCachedData_of_cached hpage).2]
              exact ⟨_, rfl⟩
            | identical | delta hn | deltaStored hn => omega
        · exact ⟨_, rfl⟩
      · exact ⟨_, rfl⟩

end QemuArm
