import QemuArm.PageCache
import QemuArm.Reach

/-!
# Resizing the cache of sent pages

`cache_resize` moves the entries one by one into a table of another size, and where two of them
meet the younger one stays. In every run the pages are at their places and counted, and a resize
leaves in each place the youngest of the pages that belong there (`cacheResize_youngest`).
-/

namespace QemuArm

open List Option

variable {α : Type}

namespace PageCache

/-- The loop body of `cache_resize`, for an entry of the old table. -/
def moveItem (new : PageCache α) (old : CacheItem α)
    (hold : old.itAddr ≠ noAddr → old.itData.isSome = true) : PageCache α :=
  if old.itAddr = noAddr then new
  else
    let newIt := new.cacheGetByAddr old.itAddr
    if newIt.itData.isSome ∧ old.itAge ≤ newIt.itAge then new
    else
      new.setItem old.itAddr new.maxItemAge
        (if newIt.itData.isNone then new.numItems + 1 else new.numItems) old hold

def moveItems : (items : List (CacheItem α)) →
    (∀ it ∈ items, it.itAddr ≠ noAddr → it.itData.isSome = true) → PageCache α → PageCache α
  | [], _, new => new
  | old :: items, h, new =>
    moveItems items (fun it hit => h it (mem_cons_of_mem old hit))
      (new.moveItem old (h old mem_cons_self))

/-- `cache_resize`, or none when it returns −1. A size that is not positive is never that of a
table, whatever `pow2floor` makes of it. -/
def cacheResize (cache : PageCache α) (alloc : Bool) (newNumPages : ℤ) : Option (PageCache α) :=
  if 0 < newNumPages ∧ pow2floor newNumPages.toNat = cache.maxNumItems then some cache
  else (cacheInit alloc newNumPages cache.pageSize).map fun new =>
    { moveItems cache.pageCache cache.itData_isSome new with maxItemAge := cache.maxItemAge }

/-- Pages are at their places, and counted. -/
structure Placed (cache : PageCache α) : Prop where
  pos : ∀ i it, cache.pageCache[i]? = some it → it.itData.isSome = true →
    it.itAddr ≠ noAddr ∧ cache.cacheGetCachePos it.itAddr = i
  num : cache.numItems = cache.pageCache.countP fun it => it.itData.isSome

/-- The entries come from the list, and no page of the list is younger than what has its place. -/
structure Moved (items : List (CacheItem α)) (new : PageCache α) : Prop extends Placed new where
  mem : ∀ it ∈ new.pageCache, it.itData.isSome = true → it ∈ items
  youngest : ∀ it ∈ items, it.itAddr ≠ noAddr →
    (new.cacheGetByAddr it.itAddr).itData.isSome = true ∧
      it.itAge ≤ (new.cacheGetByAddr it.itAddr).itAge

variable {cache new : PageCache α} {it : CacheItem α} {items : List (CacheItem α)}

theorem getElem?_cacheGetCachePos (addr : ℕ) :
    cache.pageCache[cache.cacheGetCachePos addr]? = some (cache.cacheGetByAddr addr) :=
  getElem?_eq_getElem (cache.cacheGetCachePos_lt addr)

/-- The bookkeeping of `cache_insert` and `cache_resize` for an entry. -/
theorem Placed.setItem (h : cache.Placed) {age} (hne : it.itAddr ≠ noAddr)
    (hdata : it.itData.isSome = true) {hit} : (cache.setItem it.itAddr age
      (if (cache.cacheGetByAddr it.itAddr).itData.isNone then cache.numItems + 1
        else cache.numItems) it hit).Placed where
  pos i it' hget hsome := by
    simp only [PageCache.setItem, getElem?_set] at hget
    split_ifs at hget with hpos
    · cases hget
      exact ⟨hne, hpos⟩
    · exact h.pos i it' hget hsome
  num := by
    have hlt := cache.cacheGetCachePos_lt it.itAddr
    have hle : (if (cache.cacheGetByAddr it.itAddr).itData.isSome then 1 else 0) ≤
        cache.pageCache.countP fun it => it.itData.isSome := by
      split_ifs with hsome
      · exact countP_pos_iff.mpr ⟨_, get_mem _ _, hsome⟩
      · exact Nat.zero_le _
    have hcount := countP_set (p := fun it => it.itData.isSome) (l := cache.pageCache) (a := it) hlt
    change _ = countP _ _ - (if (cache.cacheGetByAddr it.itAddr).itData.isSome then 1 else 0) + _
      at hcount
    rw [if_pos hdata] at hcount
    refine Eq.trans ?_ hcount.symm
    rw [← h.num] at hle ⊢
    cases hget : (cache.cacheGetByAddr it.itAddr).itData <;> simp_all [PageCache.setItem]

theorem Moved.moveItem (h : Moved items new) {old hold} :
    Moved (old :: items) (new.moveItem old hold) := by
  have hmem : ∀ it ∈ new.pageCache, it.itData.isSome = true → it ∈ old :: items :=
    fun it hit hs => mem_cons_of_mem _ (h.mem it hit hs)
  unfold PageCache.moveItem
  split_ifs with hno
  · exact ⟨h.toPlaced, hmem, by grind [h.youngest]⟩
  by_cases hkeep : (new.cacheGetByAddr old.itAddr).itData.isSome = true ∧
      old.itAge ≤ (new.cacheGetByAddr old.itAddr).itAge
  · rw [if_pos hkeep]
    exact ⟨h.toPlaced, hmem, by grind [h.youngest]⟩
  · rw [if_neg hkeep]
    refine ⟨h.toPlaced.setItem hno (hold hno), fun it hit hs => ?_, fun it hit hne => ?_⟩
    · rcases mem_or_eq_of_mem_set hit with hit | rfl
      · exact hmem it hit hs
      · exact mem_cons_self
    · rw [cacheGetByAddr_setItem]
      have hold' := fun hit => h.youngest it hit hne
      split_ifs with hpos
      · have hsame : new.cacheGetByAddr it.itAddr = new.cacheGetByAddr old.itAddr := by
          simp only [cacheGetByAddr, hpos]
        grind
      · grind

theorem Moved.moveItems : ∀ (items : List (CacheItem α)) {done : List (CacheItem α)}
    {new : PageCache α} (h), Moved done new → Moved (items.reverseAux done) (moveItems items h new)
  | [], _, _, _, hnew => hnew
  | _ :: items, _, _, _, hnew => moveItems items _ hnew.moveItem

theorem maxNumItems_moveItems : ∀ (items : List (CacheItem α)) (new : PageCache α) (h),
    (moveItems items h new).maxNumItems = new.maxNumItems
  | [], _, _ => rfl
  | old :: items, new, _ => by
    rw [moveItems, maxNumItems_moveItems items, moveItem]
    dsimp only
    split_ifs <;> rfl

theorem placed_cacheInit {alloc numPages pageSize}
    (h : cacheInit alloc numPages pageSize = some cache) :
    cache.Placed ∧ cache.maxNumItems = pow2floor numPages.toNat ∧
      ∀ it ∈ cache.pageCache, it.itData = none := by
  simp only [cacheInit, ite_none_left_eq_some] at h
  obtain ⟨-, -, h⟩ := h
  cases h
  refine ⟨⟨fun i it hget => ?_, ?_⟩, rfl, fun it hit => by rw [eq_of_mem_replicate hit]⟩
  · rw [eq_of_mem_replicate (mem_of_getElem? hget)]
    simp
  · simp [countP_replicate]

/-- Resizing moves the entries of the table, also when it stays as it is. -/
theorem Placed.cacheResize (h : cache.Placed) {alloc newNumPages
    cache'} (hs : cache.cacheResize alloc newNumPages = some cache') :
    cache'.maxNumItems = pow2floor newNumPages.toNat ∧ Moved cache.pageCache cache' := by
  unfold PageCache.cacheResize at hs
  split_ifs at hs with hsize
  · cases hs
    refine ⟨hsize.2.symm, h, fun it hit _ => hit, fun it hit hne => ?_⟩
    have hsome := cache.itData_isSome it hit hne
    obtain ⟨i, hi⟩ := mem_iff_getElem?.mp hit
    have hget := @getElem?_cacheGetCachePos _ cache it.itAddr
    rw [(h.pos i it hi hsome).2, hi, some_inj] at hget
    rw [← hget]
    exact ⟨hsome, le_rfl⟩
  · obtain ⟨new, hnew, rfl⟩ := map_eq_some_iff.mp hs
    obtain ⟨hplaced, hmax, hnone⟩ := placed_cacheInit hnew
    have hmoved : Moved [] new :=
      ⟨hplaced, fun it hit hsome => by simp [hnone it hit] at hsome, by simp⟩
    obtain ⟨⟨hpos, hnum⟩, hmem, hyoungest⟩ :=
      hmoved.moveItems cache.pageCache cache.itData_isSome
    exact ⟨(maxNumItems_moveItems _ _ _).trans hmax, ⟨hpos, hnum⟩,
      fun it hit hsome => mem_reverse.mp (hmem it hit hsome),
      fun it hit => hyoungest it (mem_reverse.mpr hit)⟩

theorem Placed.cacheInsert (h : cache.Placed) {alloc addr} {pdata cache'} (hne : addr ≠ noAddr)
    (hs : cache.cacheInsert alloc addr pdata = some cache') : cache'.Placed := by
  simp only [PageCache.cacheInsert, ite_none_left_eq_some] at hs
  cases hs.2
  exact @Placed.setItem _ _ ⟨addr, _, some pdata⟩ h _ hne rfl _

end PageCache

open PageCache

inductive CacheOp (α : Type) where
  | insert (alloc : Bool) (addr : ℕ) (pdata : α)
  | resize (alloc : Bool) (newNumPages : ℤ)

def cacheStep : CacheOp α → PageCache α → Option (PageCache α)
  | .insert alloc addr pdata, cache => cache.cacheInsert alloc addr pdata
  | .resize alloc newNumPages, cache => cache.cacheResize alloc newNumPages

/-- Pages are inserted at addresses of RAM, which `-1` is not. -/
def CacheOp.OfPage : CacheOp α → Prop
  | insert _ addr _ => addr ≠ noAddr
  | resize _ _ => True

/-- Pages are at their places and counted, and a resize to any size leaves in each place the
youngest of the pages that belong there, or nothing if there is none. -/
theorem cacheResize_youngest {alloc : Bool} {numPages : ℤ} {pageSize : ℕ}
    {cache₀ cache : PageCache α} (hinit : cacheInit alloc numPages pageSize = some cache₀)
    (hrun : Reach cacheStep (fun _ op => op.OfPage) cache₀ cache) :
    (∀ i it, cache.pageCache[i]? = some it → it.itData.isSome = true →
      cache.cacheGetCachePos it.itAddr = i) ∧
    cache.numItems = cache.pageCache.countP (fun it => it.itData.isSome) ∧
    ∀ alloc newNumPages cache', cache.cacheResize alloc newNumPages = some cache' →
      cache'.maxNumItems = pow2floor newNumPages.toNat ∧
      ∀ j it', cache'.pageCache[j]? = some it' →
        (it'.itData.isSome = true →
          it' ∈ cache.pageCache ∧ cache'.cacheGetCachePos it'.itAddr = j) ∧
        ∀ it ∈ cache.pageCache, it.itData.isSome = true → cache'.cacheGetCachePos it.itAddr = j →
          it'.itData.isSome = true ∧ it.itAge ≤ it'.itAge := by
  have hinv : cache.Placed := by
    refine hrun.invariant (placed_cacheInit hinit).1 fun cache op cache' h hok hs => ?_
    cases op with
    | insert => exact h.cacheInsert hok hs
    | resize => exact (h.cacheResize hs).2.toPlaced
  refine ⟨fun i it hi hsome => (hinv.pos i it hi hsome).2, hinv.num, fun alloc n cache' hs => ?_⟩
  obtain ⟨hmax, hmoved⟩ := hinv.cacheResize hs
  refine ⟨hmax, fun j it' hj => ⟨fun hsome => ?_, fun it hit hsome hpos => ?_⟩⟩
  · exact ⟨hmoved.mem it' (mem_of_getElem? hj) hsome, (hmoved.pos j it' hj hsome).2⟩
  · have hget := @getElem?_cacheGetCachePos _ cache' it.itAddr
    rw [hpos, hj, some_inj] at hget
    obtain ⟨i, hi⟩ := mem_iff_getElem?.mp hit
    rw [hget]
    exact hmoved.youngest it hit (hinv.pos i it hi hsome).1

/-- The theorem for two pages that meet in a table of half the size : the second one stays. -/
theorem cacheResize_youngest_meet : ∃ cache₀ cache : PageCache Bool,
    cacheInit true 4 4096 = some cache₀ ∧ Reach cacheStep (fun _ op => op.OfPage) cache₀ cache ∧
    (cache.cacheResize true 2).map (fun cache' => cache'.pageCache.map CacheItem.itAddr) =
      some [8192, noAddr] ∧
    cache.numItems = cache.pageCache.countP fun it => it.itData.isSome := by
  have hrun : (((cacheInit true 4 4096).bind fun cache => [CacheOp.insert true 0 false,
      .insert true 8192 true].foldlM (fun cache op => cacheStep op cache) cache).bind fun cache =>
      (cache.cacheResize true 2).map fun cache' => cache'.pageCache.map CacheItem.itAddr) =
      some [8192, noAddr] := by
    decide +kernel
  obtain ⟨cache, hcache, hresize⟩ := bind_eq_some_iff.mp hrun
  obtain ⟨cache₀, hinit, hfold⟩ := bind_eq_some_iff.mp hcache
  have hreach : Reach cacheStep (fun _ op => op.OfPage) cache₀ cache :=
    Reach.foldlM _ (by simp [CacheOp.OfPage, noAddr]) .refl hfold
  exact ⟨cache₀, cache, hinit, hreach, hresize, (cacheResize_youngest hinit hreach).2.1⟩

end QemuArm
