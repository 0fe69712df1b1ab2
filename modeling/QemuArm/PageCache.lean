import Mathlib

/-!
# The cache of sent pages

`page_cache.c` : a table of `max_num_items` entries, a power of two, in which the page at `addr`
has its place at `(addr / page_size) & (max_num_items - 1)`. A page evicts the one that had its
place. The contents are of an arbitrary type.

`PageCache.cached` is what the cache holds for an address. An insertion answers for its own
address with the new contents and for another one, if at all, as before (`cached_cacheInsert`).
-/

namespace QemuArm

variable {α : Type}

/-- The address of an entry that was never filled, `(uint64_t)-1`. -/
def noAddr : ℕ := 2 ^ 64 - 1

structure CacheItem (α : Type) where
  itAddr : ℕ
  itAge : ℕ
  itData : Option α

structure PageCache (α : Type) where
  pageCache : List (CacheItem α)
  pageSize : ℕ
  maxNumItems : ℕ
  maxItemAge : ℕ
  numItems : ℕ
  length_pageCache : pageCache.length = maxNumItems
  maxNumItems_pow : ∃ k, maxNumItems = 2 ^ k
  /-- An entry with an address has its contents. -/
  itData_isSome : ∀ it ∈ pageCache, it.itAddr ≠ noAddr → it.itData.isSome = true

/-- `pow2floor` of a positive number. -/
def pow2floor (n : ℕ) : ℕ := 2 ^ Nat.log2 n

/-- `cache_init`; `alloc` says whether there is memory for it. -/
def cacheInit (alloc : Bool) (numPages : ℤ) (pageSize : ℕ) : Option (PageCache α) :=
  if numPages ≤ 0 then none
  else if !alloc then none
  else some {
    pageCache := List.replicate (pow2floor numPages.toNat) ⟨noAddr, 0, none⟩
    pageSize := pageSize
    maxNumItems := pow2floor numPages.toNat
    maxItemAge := 0
    numItems := 0
    length_pageCache := List.length_replicate
    maxNumItems_pow := ⟨_, rfl⟩
    itData_isSome := fun it hit hne => by
      rw [List.eq_of_mem_replicate hit] at hne
      exact absurd rfl hne }

namespace PageCache

variable (cache : PageCache α)

variable (addr : ℕ)

/-- `cache_get_cache_pos`. -/
def cacheGetCachePos : ℕ :=
  (addr / cache.pageSize) &&& (cache.maxNumItems - 1)

theorem cacheGetCachePos_lt : cache.cacheGetCachePos addr < cache.pageCache.length := by
  obtain ⟨k, hk⟩ := cache.maxNumItems_pow
  unfold cacheGetCachePos
  rw [cache.length_pageCache, hk, Nat.and_two_pow_sub_one_eq_mod]
  exact Nat.mod_lt _ (Nat.two_pow_pos k)

/-- `cache_get_by_addr`. -/
def cacheGetByAddr : CacheItem α :=
  cache.pageCache.get ⟨cache.cacheGetCachePos addr, cache.cacheGetCachePos_lt addr⟩

/-- `cache_is_cached`. -/
def cacheIsCached : Bool :=
  (cache.cacheGetByAddr addr).itAddr = addr

/-- `get_cached_data`. -/
def getCachedData : Option α :=
  (cache.cacheGetByAddr addr).itData

/-- Another entry at the place of `addr`. -/
def setItem (addr age num : ℕ) (it : CacheItem α)
    (hit : it.itAddr ≠ noAddr → it.itData.isSome = true) : PageCache α :=
  { cache with
    pageCache := cache.pageCache.set (cache.cacheGetCachePos addr) it
    maxItemAge := age
    numItems := num
    length_pageCache := by rw [List.length_set, cache.length_pageCache]
    itData_isSome := fun it' hmem hne => by
      rcases List.mem_or_eq_of_mem_set hmem with h | h
      · exact cache.itData_isSome it' h hne
      · rw [h] at hne ⊢
        exact hit hne }

/-- `cache_insert`, or none when it returns −1 because there is no memory for the page. -/
def cacheInsert (alloc : Bool) (addr : ℕ) (pdata : α) : Option (PageCache α) :=
  let it := cache.cacheGetByAddr addr
  if it.itData.isNone && !alloc then none
  else
    let age := (cache.maxItemAge + 1) % 2 ^ 64
    let num := if it.itData.isNone then cache.numItems + 1 else cache.numItems
    some (cache.setItem addr age num ⟨addr, age, some pdata⟩ fun _ => rfl)

/-- `memcpy(prev_cached_page, data, TARGET_PAGE_SIZE)`, for the page that
`get_cached_data` found. -/
def updateCachedData (data : α) : PageCache α :=
  cache.setItem addr cache.maxItemAge cache.numItems
    ⟨(cache.cacheGetByAddr addr).itAddr, (cache.cacheGetByAddr addr).itAge, some data⟩ fun _ => rfl

/-- What the cache holds for `addr`. -/
def cached : Option α :=
  if cache.cacheIsCached addr then cache.getCachedData addr else none

variable {cache}

variable {addr : ℕ}

theorem cacheGetByAddr_setItem {age num it hit} (b : ℕ) :
    (cache.setItem addr age num it hit).cacheGetByAddr b =
      if cache.cacheGetCachePos b = cache.cacheGetCachePos addr then it
      else cache.cacheGetByAddr b := by
  unfold cacheGetByAddr setItem cacheGetCachePos
  rw [List.get_eq_getElem, List.getElem_set]
  split
  · rename_i h
    rw [if_pos h.symm]
  · rename_i h
    rw [if_neg (fun h' => h h'.symm)]
    rfl

/-- An entry is found with its contents. -/
theorem exists_cached_of_cacheIsCached (h : cache.cacheIsCached addr = true) (hne : addr ≠ noAddr) :
    ∃ data, cache.getCachedData addr = some data := by
  unfold cacheIsCached at h
  rw [decide_eq_true_eq] at h
  have hmem : cache.cacheGetByAddr addr ∈ cache.pageCache := List.get_mem _ _
  exact Option.isSome_iff_exists.mp (cache.itData_isSome _ hmem (by rw [h]; exact hne))

theorem cached_setItem {age num a g data hit} (haddr : a = addr) (b : ℕ) :
    (cache.setItem addr age num ⟨a, g, data⟩ hit).cached b =
      if b = addr then data
      else if cache.cacheGetCachePos b = cache.cacheGetCachePos addr then none
      else cache.cached b := by
  unfold cached cacheIsCached getCachedData
  rw [cacheGetByAddr_setItem]
  by_cases hb : b = addr
  · rw [hb, if_pos rfl, haddr]
    simp
  · rw [if_neg hb]
    by_cases hpos : cache.cacheGetCachePos b = cache.cacheGetCachePos addr
    · have hne : ¬a = b := fun h => hb (by rw [← h, haddr])
      rw [if_pos hpos, if_pos hpos]
      simp [hne]
    · rw [if_neg hpos, if_neg hpos]

/-- After an insertion the cache holds the page, and the rest as before or not at all. -/
theorem cached_cacheInsert {alloc pdata cache'}
    (h : cache.cacheInsert alloc addr pdata = some cache') (b : ℕ) :
    cache'.cached b =
      if b = addr then some pdata
      else if cache.cacheGetCachePos b = cache.cacheGetCachePos addr then none
      else cache.cached b := by
  unfold cacheInsert at h
  dsimp only at h
  split at h
  · cases h
  · cases h
    rw [cached_setItem rfl]

/-- Writing to a cached page changes what the cache holds for it and nothing else. -/
theorem cached_updateCachedData {data} (h : cache.cacheIsCached addr = true) (b : ℕ) :
    (cache.updateCachedData addr data).cached b =
      if b = addr then some data
      else if cache.cacheGetCachePos b = cache.cacheGetCachePos addr then none
      else cache.cached b := by
  unfold cacheIsCached at h
  rw [decide_eq_true_eq] at h
  unfold updateCachedData
  rw [cached_setItem h]

/-- The data read back right after an insertion or an update. -/
theorem getCachedData_of_cached {data} (h : cache.cached addr = some data) :
    cache.cacheIsCached addr = true ∧ cache.getCachedData addr = some data := by
  unfold cached at h
  split at h
  · rename_i hc
    exact ⟨hc, h⟩
  · cases h

end PageCache

/-- A new cache holds nothing. -/
theorem cached_cacheInit {alloc : Bool} {numPages : ℤ} {pageSize : ℕ} {cache : PageCache α}
    (h : cacheInit alloc numPages pageSize = some cache) (addr : ℕ) : cache.cached addr = none := by
  unfold cacheInit at h
  split at h
  · cases h
  · split at h
    · cases h
    · cases h
      unfold PageCache.cached PageCache.getCachedData PageCache.cacheGetByAddr
      simp

end QemuArm
