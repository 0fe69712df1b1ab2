import QemuArm.Qcow2Cache

/-!
# What a flush does

Everything that flushes has an effect of one kind, `Flushed` : tables are only written back,
a cache that depends on the other one is written only when all of that one is stable, and a
dependency is dropped only then. Flushing returns, since the caches never depend on each
other (`qcow2CacheFlush_isSome`), and after a flush without an error all tables of the cache
are stable (`qcow2CacheFlush_flushed`).

The contents of the tables are ordered : a table has all the updates that its older versions
have.
-/

namespace QemuArm

open List Option Function

variable {α : Type}

/-! ## The contents of the cache -/

/-- The table at an offset, as the program sees it. -/
def CacheState.view (s : CacheState α) (c : CacheId) (o : ℕ) : α :=
  if o = 0 then s.written c o
  else match findCached (s.cache c) o with
    | some i => (s.entry c i).table
    | none => s.written c o

open CacheState

variable {i : ℕ}

theorem findCached_eq_some {cache : Qcow2Cache α} {o : ℕ} (h : findCached cache o = some i) :
    i < cache.size ∧ (cache.entries i).offset = o := by
  have hp := find?_some h
  exact ⟨mem_range.1 (mem_of_find?_eq_some h), by simpa using hp⟩

theorem findCached_eq_none {cache : Qcow2Cache α} {o : ℕ} (h : findCached cache o = none)
    (hi : i < cache.size) : (cache.entries i).offset ≠ o := by
  have := find?_eq_none.1 h i (mem_range.2 hi)
  simpa using this

variable {c : CacheId} {s : CacheState α}

/-- Flushing an entry returns if flushing what its cache depends on does. -/
theorem entryFlush_isSome {flush}
    (hn : ∀ d, (s.cache c).depends = some d → (flush d s).isSome = true) (i : ℕ) :
    (qcow2CacheEntryFlush flush c i s).isSome = true := by
  have hbefore : (flushBefore flush c s).isSome = true := by
    unfold flushBefore
    split_ifs with h1
    · obtain ⟨d, hd⟩ := isSome_iff_exists.1 h1
      obtain ⟨⟨r, s₁⟩, hr⟩ := isSome_iff_exists.1 (hn d hd)
      unfold qcow2CacheFlushDependency
      rw [hd]
      dsimp only
      rw [hr]
      cases r <;> rfl
    · split <;> rfl
    · rfl
  unfold qcow2CacheEntryFlush
  split_ifs
  · rfl
  · obtain ⟨⟨r, s₁⟩, hr⟩ := isSome_iff_exists.1 hbefore
    rw [hr]
    cases r <;> rfl

/-- The entries of a cache hold the same tables. -/
def CacheState.SameOffsets (s s' : CacheState α) (c : CacheId) : Prop :=
  (s'.cache c).size = (s.cache c).size ∧ ∀ i, (s'.entry c i).offset = (s.entry c i).offset

variable {s' : CacheState α}

theorem CacheState.SameOffsets.trans {s''} (h : s.SameOffsets s' c)
    (h' : s'.SameOffsets s'' c) : s.SameOffsets s'' c :=
  ⟨h'.1.trans h.1, fun i => (h'.2 i).trans (h.2 i)⟩

theorem CacheState.SameOffsets.findCached (h : s.SameOffsets s' c) (o : ℕ) :
    findCached (s'.cache c) o = findCached (s.cache c) o := by
  unfold QemuArm.findCached
  rw [h.1]
  congr 1
  funext i
  have := h.2 i
  unfold entry at this
  rw [this]

theorem sameOffsets_setEntry {c'} (hc : c' ≠ c) (s : CacheState α) (i : ℕ)
    (e : Qcow2CachedTable α) : s.SameOffsets (s.setEntry c i e) c' :=
  ⟨size_setEntry _ _ _ _ _, fun j => by
    rw [entry_setEntry, if_neg fun h => hc h.1]⟩

theorem nextIo_cache (s : CacheState α) : (nextIo s).2.cache = s.cache := by
  unfold nextIo
  split <;> rfl

theorem sameOffsets_nextIo (s : CacheState α) (c : CacheId) : s.SameOffsets (nextIo s).2 c := by
  unfold CacheState.SameOffsets entry
  rw [nextIo_cache]
  exact ⟨rfl, fun _ => rfl⟩

/-- What is written is stable after a flush. -/
theorem bdrvFlush_stable (hr : (bdrvFlush s).1 = none) :
    (bdrvFlush s).2.stable = (bdrvFlush s).2.written ∧ (bdrvFlush s).2.written = s.written ∧
      (bdrvFlush s).2.cache = s.cache := by
  have hio : (nextIo s).2.written = s.written ∧ (nextIo s).2.cache = s.cache := by
    unfold nextIo
    split <;> exact ⟨rfl, rfl⟩
  unfold bdrvFlush at hr ⊢
  dsimp only at hr ⊢
  rw [if_pos hr]
  exact ⟨rfl, hio⟩

section Order

variable [PartialOrder α]

/-- All tables of the cache are in the file for good. -/
def CacheState.AllStable (s : CacheState α) (c : CacheId) : Prop :=
  ∀ o, s.view c o ≤ s.stable c o

structure CacheOk (s : CacheState α) : Prop where
  inj : ∀ c i j, i < (s.cache c).size → j < (s.cache c).size → (s.entry c i).offset ≠ 0 →
    (s.entry c i).offset = (s.entry c j).offset → i = j
  clean : ∀ c i, i < (s.cache c).size → (s.entry c i).offset ≠ 0 → (s.entry c i).dirty = false →
    (s.entry c i).table = s.written c (s.entry c i).offset
  le_table : ∀ c i, i < (s.cache c).size → (s.entry c i).offset ≠ 0 →
    s.written c (s.entry c i).offset ≤ (s.entry c i).table
  stable_le : ∀ c o, s.stable c o ≤ s.written c o
  /-- a cache that another one depends on depends on none -/
  acyclic : ∀ c d, (s.cache c).depends = some d → d ≠ c ∧ (s.cache d).depends = none

namespace CacheOk

variable {s : CacheState α} {c : CacheId} {i : ℕ}

section

variable (h : CacheOk s) (hi : i < (s.cache c).size) (ho : (s.entry c i).offset ≠ 0)
include h hi ho

theorem findCached_eq : findCached (s.cache c) (s.entry c i).offset = some i := by
  cases hf : findCached (s.cache c) (s.entry c i).offset with
  | none => exact absurd rfl (findCached_eq_none hf hi)
  | some j =>
    obtain ⟨hj, heq⟩ := findCached_eq_some hf
    rw [h.inj c i j hi hj ho heq.symm]

/-- A cached table is what the program sees. -/
theorem view_entry : s.view c (s.entry c i).offset = (s.entry c i).table := by
  rw [CacheState.view, if_neg ho, h.findCached_eq hi ho]

end

/-- Entries that hold the same tables as before, with other contents -/
theorem of_sameOffsets {s'} (h : CacheOk s) (hsame : ∀ c, s.SameOffsets s' c)
    (hw : s'.written = s.written) (hst : s'.stable = s.stable)
    (hclean : ∀ c i, i < (s.cache c).size → (s.entry c i).offset ≠ 0 →
      (s'.entry c i).dirty = false → (s'.entry c i).table = s.written c (s.entry c i).offset)
    (hle : ∀ c i, i < (s.cache c).size → (s.entry c i).offset ≠ 0 →
      s.written c (s.entry c i).offset ≤ (s'.entry c i).table)
    (hacyclic : ∀ c d, (s'.cache c).depends = some d → d ≠ c ∧ (s'.cache d).depends = none) :
    CacheOk s' := by
  refine ⟨fun c i j hi hj => ?_, fun c i hi => ?_, fun c i hi => ?_, ?_, hacyclic⟩
  · rw [(hsame c).1] at hi hj
    rw [(hsame c).2, (hsame c).2]
    exact h.inj c i j hi hj
  · rw [(hsame c).1] at hi
    rw [(hsame c).2, hw]
    exact hclean c i hi
  · rw [(hsame c).1] at hi
    rw [(hsame c).2, hw]
    exact hle c i hi
  · rw [hw, hst]
    exact h.stable_le

theorem written_le_view (h : CacheOk s) (o : ℕ) : s.written c o ≤ s.view c o := by
  unfold CacheState.view
  split_ifs with ho
  · exact le_rfl
  · split
    · rename_i j hf
      obtain ⟨hj, rfl⟩ := findCached_eq_some hf
      exact h.le_table c j hj ho
    · exact le_rfl

/-- With no table left to write back, the file has what the program sees. -/
theorem view_eq_written (h : CacheOk s) (hclean : ∀ i < (s.cache c).size,
      (s.entry c i).dirty = false ∨ (s.entry c i).offset = 0) (o : ℕ) :
    s.view c o = s.written c o := by
  unfold CacheState.view
  split_ifs with ho
  · rfl
  · split
    · rename_i j hf
      obtain ⟨hj, rfl⟩ := findCached_eq_some hf
      exact h.clean c j hj ho ((hclean j hj).resolve_right ho)
    · rfl

end CacheOk

/-! ## The effect of flushing -/

/-- The program sees the same tables. A cache that depends on another one is written, and a
dependency dropped, only when that one is stable. -/
structure WritesBack (s s' : CacheState α) : Prop where
  view : ∀ c o, s'.view c o = s.view c o
  written : ∀ c o, s'.written c o = s.written c o ∨ s'.written c o = s.view c o ∧
    ∀ d, (s.cache c).depends = some d → s'.AllStable d
  stable : ∀ c o, s.stable c o ≤ s'.stable c o
  depends : ∀ c, (s'.cache c).depends = (s.cache c).depends ∨ (s'.cache c).depends = none ∧
    ∀ d, (s.cache c).depends = some d → s'.AllStable d
  ok : CacheOk s'

/-- The same, at every moment on the way. -/
structure Keeps (s s' : CacheState α) : Prop extends WritesBack s s' where
  past : ∀ f ∈ s'.past, f ∈ s.past ∨ ∃ m, WritesBack s m ∧ f = (m.written, m.stable)

/-- What a flush does to the entries : none of them but the dirty flag changes. -/
structure Flushed (s s' : CacheState α) : Prop extends Keeps s s' where
  size : ∀ c, (s'.cache c).size = (s.cache c).size
  entries : ∀ c i, s'.entry c i = { s.entry c i with dirty := (s'.entry c i).dirty }
  dirty : ∀ c i, (s'.entry c i).dirty = true → (s.entry c i).dirty = true

open Flushed

namespace WritesBack

variable {s s' s'' : CacheState α}

theorem refl (h : CacheOk s) : WritesBack s s :=
  ⟨fun _ _ => rfl, fun _ _ => .inl rfl, fun _ _ => le_rfl, fun _ => .inl rfl, h⟩

section

variable (h : WritesBack s s')
include h

theorem allStable {d} (hd : s.AllStable d) : s'.AllStable d :=
  fun o => by
    rw [h.view]
    exact (hd o).trans (h.stable d o)

theorem trans (h' : WritesBack s' s'') : WritesBack s s'' := by
  refine ⟨fun c o => (h'.view c o).trans (h.view c o), fun c o => ?_,
    fun c o => (h.stable c o).trans (h'.stable c o), fun c => ?_, h'.ok⟩
  · have hdep : (∀ d, (s'.cache c).depends = some d → s''.AllStable d) →
        ∀ d, (s.cache c).depends = some d → s''.AllStable d := by
      intro hs d hd
      rcases h.depends c with heq | ⟨-, hst⟩
      · exact hs d (heq.trans hd)
      · exact h'.allStable (hst d hd)
    rcases h'.written c o with hw' | ⟨hw', hd'⟩
    · rw [hw']
      exact (h.written c o).imp id fun ⟨hw, hd⟩ => ⟨hw, fun d hs => h'.allStable (hd d hs)⟩
    · exact .inr ⟨hw'.trans (h.view c o), hdep hd'⟩
  · rcases h'.depends c with heq' | ⟨hn', hst'⟩
    · rw [heq']
      exact (h.depends c).imp id fun ⟨hn, hst⟩ => ⟨hn, fun d hd => h'.allStable (hst d hd)⟩
    · refine .inr ⟨hn', fun d hd => ?_⟩
      rcases h.depends c with heq | ⟨-, hst⟩
      · exact hst' d (heq.trans hd)
      · exact h'.allStable (hst d hd)

theorem depends_eq_none (hn : (s.cache c).depends = none) : (s'.cache c).depends = none := by
  rcases h.depends c with heq | ⟨heq, -⟩
  · exact heq.trans hn
  · exact heq

/-- No update of a table gets lost in the file. -/
theorem written_le (hok : CacheOk s) (c : CacheId) (o : ℕ) : s.written c o ≤ s'.written c o := by
  rcases h.written c o with heq | ⟨heq, -⟩
  · exact heq.ge
  · exact (hok.written_le_view o).trans heq.ge

end

end WritesBack

theorem Keeps.trans {s''} (h : Keeps s s') (h' : Keeps s' s'') : Keeps s s'' := by
  refine ⟨h.toWritesBack.trans h'.toWritesBack, fun f hf => ?_⟩
  rcases h'.past f hf with hf | ⟨m, hm, rfl⟩
  · exact h.past f hf
  · exact .inr ⟨m, h.toWritesBack.trans hm, rfl⟩

namespace Flushed

variable {s s' s'' : CacheState α}

/-- The entries fix what the program sees. -/
theorem of_entries (h : CacheOk s) (size : ∀ c, (s'.cache c).size = (s.cache c).size)
    (entries : ∀ c i, s'.entry c i = { s.entry c i with dirty := (s'.entry c i).dirty })
    (dirty : ∀ c i, (s'.entry c i).dirty = true → (s.entry c i).dirty = true)
    (written : ∀ c o, s'.written c o = s.written c o ∨ s'.written c o = s.view c o ∧
      ∀ d, (s.cache c).depends = some d → s'.AllStable d)
    (stable : ∀ c o, s.stable c o ≤ s'.stable c o)
    (depends : ∀ c, (s'.cache c).depends = (s.cache c).depends ∨
      (s'.cache c).depends = none ∧ ∀ d, (s.cache c).depends = some d → s'.AllStable d)
    (past : ∀ f ∈ s'.past, f ∈ s.past ∨ f = (s.written, s.stable))
    (ok : CacheOk s') : Flushed s s' := by
  refine ⟨⟨⟨fun c o => ?_, written, stable, depends, ok⟩,
    fun f hf => (past f hf).imp id fun hf => ⟨s, WritesBack.refl h, hf⟩⟩, size, entries, dirty⟩
  have hsame : s.SameOffsets s' c := ⟨size c, fun i => by rw [entries c i]⟩
  have hwritten : s.view c o = s.written c o → s'.written c o = s.view c o := by
    intro hv
    rcases written c o with hw | ⟨hw, -⟩
    · rw [hw, hv]
    · exact hw
  unfold CacheState.view at *
  split_ifs at * with ho
  · exact hwritten rfl
  · rw [hsame.findCached]
    cases hf : findCached (s.cache c) o with
    | none =>
      rw [hf] at hwritten
      exact hwritten rfl
    | some i =>
      show (s'.entry c i).table = (s.entry c i).table
      rw [entries c i]

theorem sameOffsets (h : Flushed s s') (c : CacheId) : s.SameOffsets s' c :=
  ⟨h.size c, fun i => by rw [h.entries c i]⟩

theorem refl (h : CacheOk s) : Flushed s s :=
  of_entries h (fun _ => rfl) (fun _ _ => rfl) (fun _ _ h => h) (fun _ _ => .inl rfl)
    (fun _ _ => le_rfl) (fun _ => .inl rfl) (fun _ => .inl) h

theorem trans (h : Flushed s s') (h' : Flushed s' s'') : Flushed s s'' := by
  refine ⟨h.toKeeps.trans h'.toKeeps, fun c => (h'.size c).trans (h.size c), fun c i => ?_,
    fun c i hd => h.dirty c i (h'.dirty c i hd)⟩
  rw [h'.entries c i, h.entries c i]

end Flushed

/-! ## Requests to the file -/

section Steps

variable {s s' : CacheState α} {c : CacheId}

/-- States that differ in nothing but the results that are left. -/
theorem Flushed.io (h : CacheOk s) (io : List IoResult) : Flushed s { s with io := io } :=
  of_entries h (fun _ => rfl) (fun _ _ => rfl) (fun _ _ h => h) (fun _ _ => .inl rfl)
    (fun _ _ => le_rfl) (fun _ => .inl rfl) (fun _ => .inl)
    ⟨h.inj, h.clean, h.le_table, h.stable_le, h.acyclic⟩

theorem nextIo_flushed (h : CacheOk s) : Flushed s (nextIo s).2 := by
  unfold nextIo
  split
  · exact refl h
  · exact io h _

theorem bdrvFlush_flushed (h : CacheOk s) : Flushed s (bdrvFlush s).2 := by
  have hio := nextIo_flushed h
  unfold bdrvFlush
  dsimp only
  split_ifs
  · refine hio.trans (of_entries hio.ok (fun _ => rfl) (fun _ _ => rfl) (fun _ _ h => h)
      (fun _ _ => .inl rfl) hio.ok.stable_le (fun _ => .inl rfl)
      (fun f hf => (mem_cons.1 hf).symm) ?_)
    exact ⟨hio.ok.inj, hio.ok.clean, hio.ok.le_table, fun _ _ => le_rfl, hio.ok.acyclic⟩
  · exact hio

/-- A table of a cache that depends on nothing is written. -/
theorem Flushed.write (h : CacheOk s) (hdep : (s.cache c).depends = none)
    (hi : i < (s.cache c).size) (ho : (s.entry c i).offset ≠ 0) :
    Flushed s { s with
      written := update s.written c (update (s.written c) (s.entry c i).offset (s.entry c i).table)
      past := (s.written, s.stable) :: s.past } := by
  obtain ⟨w, hw⟩ := @exists_eq _ (update s.written c (update (s.written c) (s.entry c i).offset
    (s.entry c i).table))
  have hself : w c (s.entry c i).offset = (s.entry c i).table := by simp [hw]
  have hother : ∀ c' o, (c' ≠ c ∨ o ≠ (s.entry c i).offset) → w c' o = s.written c' o := by
    rintro c' o hne
    by_cases hc : c' = c
    · subst hc
      simp [hw, hne.resolve_left (not_not.2 rfl)]
    · simp [hw, hc]
  have hcases : ∀ c' j, j < (s.cache c').size → (s.entry c' j).offset ≠ 0 →
      w c' (s.entry c' j).offset = (s.entry c' j).table ∨
      w c' (s.entry c' j).offset = s.written c' (s.entry c' j).offset := by
    intro c' j hj hoj
    by_cases hne : c' ≠ c ∨ (s.entry c' j).offset ≠ (s.entry c i).offset
    · exact .inr (hother _ _ hne)
    · push Not at hne
      obtain ⟨rfl, heq⟩ := hne
      obtain rfl := h.inj c' j i hj hi hoj heq
      exact .inl hself
  rw [← hw]
  refine of_entries h (fun _ => rfl) (fun _ _ => rfl) (fun _ _ h => h) (fun c' o => ?_)
    (fun _ _ => le_rfl) (fun _ => .inl rfl) (fun f hf => (mem_cons.1 hf).symm)
    ⟨h.inj, fun c' j hj hoj hd => ?_, fun c' j hj hoj => ?_, fun c' o => ?_, h.acyclic⟩
  · by_cases hne : c' ≠ c ∨ o ≠ (s.entry c i).offset
    · exact .inl (hother c' o hne)
    · push Not at hne
      obtain ⟨rfl, rfl⟩ := hne
      refine .inr ⟨hself.trans (h.view_entry hi ho).symm, fun d hd => ?_⟩
      rw [hdep] at hd
      cases hd
  · rcases hcases c' j hj hoj with heq | heq
    · exact heq.symm
    · exact (h.clean c' j hj hoj hd).trans heq.symm
  · rcases hcases c' j hj hoj with heq | heq
    · exact heq.le
    · exact heq.le.trans (h.le_table c' j hj hoj)
  · show s.stable c' o ≤ w c' o
    by_cases hne : c' ≠ c ∨ o ≠ (s.entry c i).offset
    · rw [hother c' o hne]
      exact h.stable_le c' o
    · push Not at hne
      obtain ⟨rfl, rfl⟩ := hne
      rw [hself]
      exact (h.stable_le _ _).trans (h.le_table _ i hi ho)

/-- An entry that the file has is marked as clean. -/
theorem Flushed.clean (h : CacheOk s)
    (hw : s.written c (s.entry c i).offset = (s.entry c i).table) :
    Flushed s (s.setEntry c i { s.entry c i with dirty := false }) := by
  have hentry : ∀ c' j, (s.setEntry c i { s.entry c i with dirty := false }).entry c' j =
      { s.entry c' j with dirty := if c' = c ∧ j = i then false else (s.entry c' j).dirty } := by
    intro c' j
    rw [entry_setEntry]
    split_ifs with heq
    · rw [heq.1, heq.2]
    · rfl
  refine of_entries h (size_setEntry _ _ _ _) (fun c' j => ?_) (fun c' j hd => ?_)
    (fun _ _ => .inl rfl) (fun _ _ => le_rfl) (fun c' => .inl (depends_setEntry _ _ _ _ c'))
    (fun _ => .inl) (h.of_sameOffsets (fun c' => ⟨size_setEntry _ _ _ _ c', fun j => ?_⟩)
      rfl rfl (fun c' j hj ho hd => ?_) (fun c' j hj ho => ?_) (by simpa using h.acyclic))
  · rw [hentry]
  · rw [hentry] at hd
    split_ifs at hd
    exact hd
  · rw [hentry]
  · rw [hentry] at hd ⊢
    split_ifs at hd with heq
    · rw [heq.1, heq.2, hw]
    · exact h.clean c' j hj ho hd
  · rw [hentry]
    exact h.le_table c' j hj ho

/-- The cache with other dependencies. -/
abbrev CacheState.flags (s : CacheState α) (c : CacheId) (dep : Option CacheId) (b : Bool) :
    CacheState α := s.setCache c { s.cache c with depends := dep, dependsOnFlush := b }

omit [PartialOrder α] in
theorem cache_flags (s : CacheState α) (c : CacheId) (dep : Option CacheId) (b : Bool)
    (c' : CacheId) : ((s.flags c dep b).cache c').size = (s.cache c').size ∧
      ((s.flags c dep b).cache c').entries = (s.cache c').entries ∧
      ((s.flags c dep b).cache c').depends = if c' = c then dep else (s.cache c').depends := by
  by_cases hc : c' = c
  · subst hc
    simp
  · simp [hc]

omit [PartialOrder α] in
theorem view_flags (s : CacheState α) (c : CacheId) (dep : Option CacheId) (b : Bool)
    (c' : CacheId) (o : ℕ) : (s.flags c dep b).view c' o = s.view c' o := by
  obtain ⟨h1, h2, -⟩ := cache_flags s c dep b c'
  unfold CacheState.view findCached entry
  rw [h1, h2]
  rfl

/-- The flags of a cache do not matter, as long as the caches do not depend on each other. -/
theorem CacheOk.setFlags (h : CacheOk s) {dep b}
    (hdep : ∀ d, dep = some d → d ≠ c ∧ (s.cache d).depends = none)
    (hrev : ∀ c', (s.cache c').depends = some c → dep = none) :
    CacheOk (s.flags c dep b) := by
  have hcache := cache_flags s c dep b
  have hentry : ∀ c' j, (s.flags c dep b).entry c' j = s.entry c' j := fun c' j =>
    congrFun (hcache c').2.1 j
  refine h.of_sameOffsets (fun c' => ⟨(hcache c').1, fun j => by rw [hentry]⟩) rfl rfl
    (fun c' j hj => ?_) (fun c' j hj => ?_) fun c' d hd => ?_
  · rw [hentry]
    exact h.clean c' j hj
  · rw [hentry]
    exact h.le_table c' j hj
  · rw [(hcache c').2.2] at hd
    rw [(hcache d).2.2]
    split_ifs at hd with hc
    · obtain ⟨h1, h2⟩ := hdep d hd
      rw [hc, if_neg h1]
      exact ⟨h1, h2⟩
    · obtain ⟨h1, h2⟩ := h.acyclic c' d hd
      refine ⟨h1, ?_⟩
      split_ifs with hdc
      · exact hrev c' (hdc ▸ hd)
      · exact h2

/-- A cache that waited for the other one does not depend on it any more, nor on a flush. -/
theorem Flushed.setFlags (h : CacheOk s) {dep b} (hdep : dep = (s.cache c).depends ∨
      dep = none ∧ ∀ d, (s.cache c).depends = some d → s.AllStable d) :
    Flushed s (s.flags c dep b) := by
  have hcache := cache_flags s c dep b
  have hentry : ∀ c' j, (s.flags c dep b).entry c' j = s.entry c' j := fun c' j =>
    congrFun (hcache c').2.1 j
  refine of_entries h (fun c' => (hcache c').1) (fun c' j => by rw [hentry])
    (fun c' j hd => by rwa [hentry] at hd) (fun _ _ => .inl rfl) (fun _ _ => le_rfl)
    (fun c' => ?_) (fun _ => .inl) (h.setFlags (fun d hd => ?_) fun c' hc' => ?_)
  · rw [(hcache c').2.2]
    split_ifs with hc
    · subst hc
      refine hdep.imp id fun ⟨hn, hst⟩ => ⟨hn, fun d hd o => ?_⟩
      rw [view_flags]
      exact hst d hd o
    · exact .inl rfl
  · rcases hdep with rfl | ⟨rfl, -⟩
    · exact h.acyclic c d hd
    · cases hd
  · rcases hdep with rfl | ⟨rfl, -⟩
    · exact (h.acyclic c' c hc').2
    · rfl

end Steps

/-! ## Flushing a cache -/

/-- The entry has nothing to write back. -/
def CacheState.Clean (s : CacheState α) (c : CacheId) (i : ℕ) : Prop :=
  (s.entry c i).dirty = false ∨ (s.entry c i).offset = 0

theorem Flushed.clean_of_clean (h : Flushed s s') (hc : s.Clean c i) : s'.Clean c i := by
  refine hc.imp (fun hd => ?_) fun ho => ?_
  · refine Bool.eq_false_of_not_eq_true fun hd' => ?_
    rw [h.dirty c i hd'] at hd
    cases hd
  · rw [h.entries c i]
    exact ho

variable {r : Option Errno}

section

variable (h : CacheOk s) (hdep : (s.cache c).depends = none) (hi : i < (s.cache c).size)
  (ho : (s.entry c i).offset ≠ 0)
include h hdep hi ho

theorem bdrvPwrite_flushed (hs : bdrvPwrite c (s.entry c i).offset (s.entry c i).table s = (r,
      s')) :
    Flushed s s' ∧ (r = none → s'.written c (s'.entry c i).offset = (s'.entry c i).table) := by
  have hio := nextIo_flushed h
  have hcache := nextIo_cache s
  have hentry : (nextIo s).2.entry c i = s.entry c i := by
    unfold entry
    rw [hcache]
  unfold bdrvPwrite at hs
  dsimp only at hs
  rw [← hentry] at hs ho
  rw [← hcache] at hdep hi
  split_ifs at hs with hok
  all_goals obtain ⟨rfl, rfl⟩ := Prod.mk.inj hs
  · refine ⟨hio.trans (write hio.ok hdep hi ho), fun _ => ?_⟩
    simp [entry]
  · exact ⟨hio, fun hr => absurd (.inl hr) hok⟩

theorem writeEntry_flushed :
    Flushed s (writeEntry c i s).2 ∧
      ((writeEntry c i s).1 = none → (writeEntry c i s).2.Clean c i) := by
  have hio := nextIo_flushed h
  have hcache := nextIo_cache s
  unfold writeEntry
  split
  · rename_i e s₁ heq
    obtain ⟨-, rfl⟩ := Prod.mk.inj heq
    exact ⟨hio, nofun⟩
  · rename_i s₁ heq
    obtain ⟨-, rfl⟩ := Prod.mk.inj heq
    have ho' : ((nextIo s).2.entry c i).offset ≠ 0 := by
      unfold entry
      rw [hcache]
      exact ho
    split
    · rename_i e s₂ heq₂
      exact ⟨hio.trans (bdrvPwrite_flushed hio.ok (hcache ▸ hdep) (hcache ▸ hi) ho' heq₂).1, nofun⟩
    · rename_i s₂ heq₂
      obtain ⟨hf, hw⟩ := bdrvPwrite_flushed hio.ok (hcache ▸ hdep) (hcache ▸ hi) ho' heq₂
      refine ⟨hio.trans (hf.trans (clean hf.ok (hw rfl))), fun _ => .inl ?_⟩
      rw [entry_setEntry, if_pos ⟨rfl, rfl⟩]

end

section Flush

variable {flush : CacheId → CacheState α → CacheResult α}
  (hflush : ∀ {c : CacheId} {s s' : CacheState α} {r : Option Errno}, CacheOk s →
    flush c s = some (r, s') → Flushed s s' ∧ (r = none → s'.AllStable c))

include hflush

/-- Without an error the cache does not depend on anything. -/
theorem flushBefore_flushed (h : CacheOk s) (hs : flushBefore flush c s = some (r, s')) :
    Flushed s s' ∧ (r = none → (s'.cache c).depends = none) := by
  unfold flushBefore at hs
  split_ifs at hs with h1 h2
  · obtain ⟨d, hd⟩ := isSome_iff_exists.1 h1
    unfold qcow2CacheFlushDependency at hs
    rw [hd] at hs
    dsimp only at hs
    split at hs
    · cases hs
    · rename_i e s₁ heq
      cases hs
      exact ⟨(hflush h heq).1, nofun⟩
    · rename_i s₁ heq
      cases hs
      obtain ⟨hf, hst⟩ := hflush h heq
      refine ⟨hf.trans (setFlags hf.ok (.inr ⟨rfl, fun d' hd' => ?_⟩)), fun _ => ?_⟩
      · have : d' = d := by
          rcases hf.depends c with he | ⟨he, -⟩
          · rw [he, hd] at hd'
            exact (Option.some.inj hd').symm
          · rw [he] at hd'
            cases hd'
        exact this ▸ hst rfl
      · simp
  · have hn : (s.cache c).depends = none := by simpa using h1
    have hf := bdrvFlush_flushed h
    split at hs
    · rename_i e s₁ heq
      cases hs
      rw [heq] at hf
      exact ⟨hf, nofun⟩
    · rename_i s₁ heq
      cases hs
      rw [heq] at hf
      have hn' : (s₁.cache c).depends = none := hf.depends_eq_none hn
      refine ⟨hf.trans (setFlags hf.ok (.inl rfl)), fun _ => ?_⟩
      simpa using hn'
  · cases hs
    exact ⟨refl h, fun _ => by simpa using h1⟩

theorem entryFlush_flushed (h : CacheOk s) (hi : i < (s.cache c).size)
    (hs : qcow2CacheEntryFlush flush c i s = some (r, s')) :
    Flushed s s' ∧ (r = none → s'.Clean c i) := by
  unfold qcow2CacheEntryFlush at hs
  split_ifs at hs with hclean
  · cases hs
    exact ⟨refl h, fun _ => hclean⟩
  · split at hs
    · cases hs
    · rename_i e s₁ heq
      cases hs
      exact ⟨(flushBefore_flushed hflush h heq).1, nofun⟩
    · rename_i s₁ heq
      obtain ⟨hf, hn⟩ := flushBefore_flushed hflush h heq
      have ho : (s₁.entry c i).offset ≠ 0 := by
        rw [hf.entries c i]
        exact fun ho => hclean (.inr ho)
      obtain ⟨hw, hcl⟩ := writeEntry_flushed hf.ok (hn rfl) ((hf.size c).symm ▸ hi) ho
      have hres := Option.some.inj hs
      rw [hres] at hw hcl
      exact ⟨hf.trans hw, hcl⟩

theorem flushEntries_flushed : ∀ (is : List ℕ) (result : Option Errno)
    {s s' : CacheState α} {r : Option Errno}, CacheOk s → (∀ i ∈ is, i < (s.cache c).size) →
    flushEntries flush c is result s = some (r, s') →
    Flushed s s' ∧ (r = none → result = none ∧ ∀ i ∈ is, s'.Clean c i)
  | [], result, s, s', r, h, _, hs => by
    cases hs
    exact ⟨refl h, fun hr => ⟨hr, by simp⟩⟩
  | i :: is, result, s, s', r, h, his, hs => by
    rw [flushEntries] at hs
    split at hs
    · cases hs
    · rename_i ret s₁ heq
      obtain ⟨hf, hcl⟩ := entryFlush_flushed hflush h (his i mem_cons_self) heq
      obtain ⟨hf', hrest⟩ := flushEntries_flushed is _ hf.ok
        (fun j hj => (hf.size c).symm ▸ his j (mem_cons_of_mem i hj)) hs
      refine ⟨hf.trans hf', fun hr => ?_⟩
      obtain ⟨hres, hall⟩ := hrest hr
      split_ifs at hres with hc
      · exact absurd hres hc.1
      · have hret : ret = none := by
          by_contra hne
          exact hc ⟨hne, by rw [hres]; nofun⟩
        refine ⟨hres, fun j hj => ?_⟩
        rcases mem_cons.1 hj with rfl | hj
        · exact hf'.clean_of_clean (hcl hret)
        · exact hall j hj

end Flush

/-- A flush of a cache, and of what it depends on, inside each other. -/
theorem qcow2CacheFlush_flushed : ∀ (depth : ℕ) {c : CacheId} {s s' : CacheState α}
    {r : Option Errno}, CacheOk s → qcow2CacheFlush depth c s = some (r, s') →
    Flushed s s' ∧ (r = none → s'.AllStable c)
  | 0, _, _, _, _, _, hs => nomatch hs
  | depth + 1, c, s, s', r, h, hs => by
    rw [qcow2CacheFlush] at hs
    split at hs
    · cases hs
    · rename_i e s₁ heq
      cases hs
      exact ⟨(flushEntries_flushed (qcow2CacheFlush_flushed depth) _ _ h
        (fun i hi => mem_range.1 hi) heq).1, nofun⟩
    · rename_i s₁ heq
      obtain ⟨hf, hcl⟩ := flushEntries_flushed (qcow2CacheFlush_flushed depth) _ _ h
        (fun i hi => mem_range.1 hi) heq
      have hb := bdrvFlush_flushed hf.ok
      have hres := Option.some.inj hs
      have hst := bdrvFlush_stable (s := s₁)
      rw [hres] at hb hst
      refine ⟨hf.trans hb, fun hr o => ?_⟩
      obtain ⟨h1, h2, -⟩ := hst hr
      rw [hb.view, h1, h2]
      refine (hf.ok.view_eq_written (fun i hi => ?_) o).le
      rw [hf.size c] at hi
      exact (hcl rfl).2 i (mem_range.2 hi)

/-! ## Flushing returns -/

theorem flushEntries_isSome {flush}
    (hflush : ∀ {c : CacheId} {s s' : CacheState α} {r : Option Errno}, CacheOk s →
      flush c s = some (r, s') → Flushed s s' ∧ (r = none → s'.AllStable c)) :
    ∀ (is : List ℕ) result s, CacheOk s →
      (∀ i ∈ is, i < (s.cache c).size) →
      (∀ s', Flushed s s' → ∀ d, (s'.cache c).depends = some d → (flush d s').isSome = true) →
      (flushEntries flush c is result s).isSome = true
  | [], _, _, _, _, _ => rfl
  | i :: is, result, s, h, his, hn => by
    obtain ⟨⟨r, s₁⟩, hr⟩ := isSome_iff_exists.1 (entryFlush_isSome (hn s (refl h)) i)
    obtain ⟨hf, -⟩ := entryFlush_flushed hflush h (his i mem_cons_self) hr
    rw [flushEntries, hr]
    exact flushEntries_isSome hflush is _ s₁ hf.ok
      (fun j hj => (hf.size c).symm ▸ his j (mem_cons_of_mem i hj))
      fun s₂ hf₂ => hn s₂ (hf.trans hf₂)

variable {depth : ℕ}

theorem flush_isSome_of_forall (h : CacheOk s)
    (hn : ∀ s', Flushed s s' → ∀ d, (s'.cache c).depends = some d →
      (qcow2CacheFlush depth d s').isSome = true) :
    (qcow2CacheFlush (depth + 1) c s).isSome = true := by
  obtain ⟨⟨r, s₁⟩, hr⟩ := isSome_iff_exists.1
    (flushEntries_isSome (qcow2CacheFlush_flushed depth) (List.range (s.cache c).size) none s h
      (fun i hi => mem_range.1 hi) hn)
  rw [qcow2CacheFlush, hr]
  cases r <;> rfl

/-- A cache is flushed with the one it depends on inside of it, and no deeper. -/
theorem qcow2CacheFlush_isSome (h : CacheOk s) (depth : ℕ) (c : CacheId) :
    (qcow2CacheFlush (depth + 2) c s).isSome = true := by
  refine flush_isSome_of_forall h fun s₁ hf d hd => ?_
  have hnone := (hf.ok.acyclic c d hd).2
  refine flush_isSome_of_forall hf.ok fun s₂ hf₂ d' hd' => ?_
  rw [hf₂.depends_eq_none hnone] at hd'
  cases hd'

/-! ## Setting a dependency -/

/-- A cache waits for what it depends on, and does not depend on it any more. -/
theorem flushDependency_flushed (h : CacheOk s)
    (hs : qcow2CacheFlushDependency (qcow2CacheFlush depth) c s = some (r, s')) :
    Flushed s s' ∧ (r = none → (s'.cache c).depends = none) := by
  by_cases hd : (s.cache c).depends = none
  · rw [qcow2CacheFlushDependency, hd] at hs
    cases hs
    exact ⟨refl h, fun _ => hd⟩
  · refine flushBefore_flushed (qcow2CacheFlush_flushed depth) h ?_
    rw [flushBefore, if_pos (isSome_iff_ne_none.2 hd)]
    exact hs

/-- `qcow2_cache_set_dependency` flushes until the other cache depends on nothing. -/
theorem setDependency_flushed {dependency} (h : CacheOk s)
    (hs : qcow2CacheSetDependency depth c dependency s = some (r, s')) :
    if r = none then ∃ s₁, Flushed s s₁ ∧ (s₁.cache dependency).depends = none ∧
      s' = s₁.setCache c { s₁.cache c with depends := some dependency }
    else Flushed s s' := by
  unfold qcow2CacheSetDependency at hs
  dsimp only at hs
  -- the first flush
  have hfirst : ∀ {r₁ s₁}, (if (s.cache dependency).depends ≠ none then
      qcow2CacheFlushDependency (qcow2CacheFlush depth) dependency s else some (none, s)) =
        some (r₁, s₁) → Flushed s s₁ ∧ (r₁ = none → (s₁.cache dependency).depends = none) := by
    intro r₁ s₁ heq
    split_ifs at heq with hd
    · exact flushDependency_flushed h heq
    · cases heq
      exact ⟨refl h, fun _ => not_not.1 hd⟩
  split at hs
  · cases hs
  · rename_i e s₁ heq
    cases hs
    exact (hfirst heq).1
  · rename_i s₁ heq
    obtain ⟨hk, hn⟩ := hfirst heq
    have hsecond : ∀ {r₂ s₂}, (if (s₁.cache c).depends ≠ none ∧
        (s₁.cache c).depends ≠ some dependency then
        qcow2CacheFlushDependency (qcow2CacheFlush depth) c s₁ else some (none, s₁)) =
          some (r₂, s₂) → Flushed s₁ s₂ := by
      intro r₂ s₂ heq
      split_ifs at heq with hd
      · exact (flushDependency_flushed hk.ok heq).1
      · cases heq
        exact refl hk.ok
    split at hs
    · cases hs
    · rename_i e s₂ heq₂
      cases hs
      exact hk.trans (hsecond heq₂)
    · rename_i s₂ heq₂
      cases hs
      have hk₂ := hsecond heq₂
      exact ⟨s₂, hk.trans hk₂, hk₂.depends_eq_none (hn rfl), rfl⟩

/-- A cache that nothing is to depend on may depend on another one. -/
theorem CacheOk.setDepends (h : CacheOk s) {d} (hne : d ≠ c) (hn : (s.cache d).depends = none) :
    CacheOk (s.setCache c { s.cache c with depends := some d }) := by
  refine h.setFlags (fun d' hd' => ?_) fun c' hc' => ?_
  · cases hd'
    exact ⟨hne, hn⟩
  · -- there is no third cache
    obtain rfl : c' = d := by
      have h1 := (h.acyclic c' c hc').1
      cases c <;> cases c' <;> cases d <;> first | rfl | exact absurd rfl h1 | exact absurd rfl hne
    rw [hn] at hc'
    cases hc'

/-! ## Getting a table -/

/-- An entry is replaced. What it held is in the file, and it holds what the program sees. -/
theorem Keeps.setEntry (h : CacheOk s) (hi : i < (s.cache c).size) {e : Qcow2CachedTable α}
    (hold : (s.entry c i).offset ≠ 0 → (s.entry c i).offset ≠ e.offset →
      (s.entry c i).table = s.written c (s.entry c i).offset)
    (huniq : e.offset ≠ 0 → ∀ j < (s.cache c).size, j ≠ i → (s.entry c j).offset ≠ e.offset)
    (htable : e.offset ≠ 0 → e.table = s.view c e.offset)
    (hclean : e.offset ≠ 0 → e.dirty = false → e.table = s.written c e.offset) :
    Keeps s (s.setEntry c i e) := by
  obtain ⟨s', hs'⟩ := @exists_eq _ (s.setEntry c i e)
  have hsize : ∀ c', (s'.cache c').size = (s.cache c').size := fun c' => by simp [hs']
  have hdep : ∀ c', (s'.cache c').depends = (s.cache c').depends := fun c' => by simp [hs']
  have hw : s'.written = s.written := by rw [hs']; rfl
  have hself : s'.entry c i = e := by rw [hs', entry_setEntry, if_pos ⟨rfl, rfl⟩]
  have hother : ∀ c' j, ¬(c' = c ∧ j = i) → s'.entry c' j = s.entry c' j := by
    intro c' j hne
    rw [hs', entry_setEntry, if_neg hne]
  rw [← hs']
  have hok : CacheOk s' := by
    refine ⟨fun c' j k hj hk ho heq => ?_, fun c' j hj ho hd => ?_, fun c' j hj ho => ?_, ?_,
      fun c' d hd => ?_⟩
    · rw [hsize] at hj hk
      by_cases hji : c' = c ∧ j = i
      · obtain ⟨rfl, rfl⟩ := hji
        rw [hself] at ho heq
        by_contra hne
        rw [hother c' k fun hh => hne hh.2.symm] at heq
        exact huniq ho k hk (Ne.symm hne) heq.symm
      · by_cases hki : c' = c ∧ k = i
        · obtain ⟨rfl, rfl⟩ := hki
          rw [hother c' j hji] at ho heq
          rw [hself] at heq
          exact absurd heq (huniq (heq ▸ ho) j hj fun hh => hji ⟨rfl, hh⟩)
        · rw [hother c' j hji] at ho heq
          rw [hother c' k hki] at heq
          exact h.inj c' j k hj hk ho heq
    · rw [hsize] at hj
      rw [hw]
      by_cases hji : c' = c ∧ j = i
      · obtain ⟨rfl, rfl⟩ := hji
        rw [hself] at ho hd ⊢
        exact hclean ho hd
      · rw [hother c' j hji] at ho hd ⊢
        exact h.clean c' j hj ho hd
    · rw [hsize] at hj
      rw [hw]
      by_cases hji : c' = c ∧ j = i
      · obtain ⟨rfl, rfl⟩ := hji
        rw [hself] at ho ⊢
        rw [htable ho]
        exact h.written_le_view _
      · rw [hother c' j hji] at ho ⊢
        exact h.le_table c' j hj ho
    · rw [hs']
      exact h.stable_le
    · rw [hdep] at hd ⊢
      exact h.acyclic c' d hd
  refine ⟨⟨fun c' o => ?_, fun _ _ => .inl (by rw [hw]), fun _ _ => by rw [hs']; exact le_rfl,
    fun c' => .inl (hdep c'), hok⟩, by rw [hs']; exact fun _ => .inl⟩
  by_cases ho : o = 0
  · rw [CacheState.view, CacheState.view, if_pos ho, if_pos ho, hw]
  · cases hf : findCached (s'.cache c') o with
    | some j =>
      obtain ⟨hj, heq⟩ := findCached_eq_some hf
      have hoff : (s'.entry c' j).offset = o := heq
      have hv := hok.view_entry hj (hoff.symm ▸ ho)
      rw [hoff] at hv
      rw [hv]
      rw [hsize] at hj
      by_cases hji : c' = c ∧ j = i
      · obtain ⟨rfl, rfl⟩ := hji
        rw [hself] at hoff ⊢
        rw [htable (hoff.symm ▸ ho), hoff]
      · rw [hother c' j hji] at hoff ⊢
        rw [← hoff, h.view_entry hj (hoff.symm ▸ ho)]
    | none =>
      rw [CacheState.view, if_neg ho, hf]
      rw [hw]
      cases hf' : findCached (s.cache c') o with
      | none => rw [CacheState.view, if_neg ho, hf']
      | some j =>
        obtain ⟨hj, heq⟩ := findCached_eq_some hf'
        have hoff : (s.entry c' j).offset = o := heq
        by_cases hji : c' = c ∧ j = i
        · obtain ⟨rfl, rfl⟩ := hji
          have hne : (s.entry c' j).offset ≠ e.offset := by
            intro heq
            refine findCached_eq_none hf ((hsize c').symm ▸ hj) ?_
            show (s'.entry c' j).offset = o
            rw [hself, ← heq, hoff]
          have hv := h.view_entry hj (hoff.symm ▸ ho)
          rw [hold (hoff.symm ▸ ho) hne, hoff] at hv
          exact hv.symm
        · refine absurd ?_ (findCached_eq_none hf ((hsize c').symm ▸ hj))
          show (s'.entry c' j).offset = o
          rw [hother c' j hji, hoff]

omit [PartialOrder α] in
theorem findMin_mem {entries : ℕ → Qcow2CachedTable α} : ∀ {is : List ℕ} {best : Option ℕ × ℕ}
    {i : ℕ}, (findMin entries is best).1 = some i → i ∈ is ∨ best.1 = some i
  | [], _, _, h => .inr h
  | j :: is, best, i, h => by
    rw [findMin] at h
    rcases findMin_mem h with h | h
    · exact .inl (mem_cons_of_mem j h)
    · split_ifs at h
      · exact .inl (Option.some.inj h ▸ mem_cons_self)
      · exact .inr h

section

variable (h : CacheOk s)
include h

/-- Entries that differ in their hits and users only hold the same. -/
theorem Keeps.of_hits (hcache : ∀ c, (s'.cache c).size = (s.cache c).size ∧
      (s'.cache c).depends = (s.cache c).depends)
    (hentry : ∀ c i, (s'.entry c i).table = (s.entry c i).table ∧
      (s'.entry c i).offset = (s.entry c i).offset ∧ (s'.entry c i).dirty = (s.entry c i).dirty)
    (hw : s'.written = s.written) (hst : s'.stable = s.stable) (hpast : s'.past = s.past) :
    Keeps s s' := by
  have hsame : ∀ c, s.SameOffsets s' c := fun c => ⟨(hcache c).1, fun i => (hentry c i).2.1⟩
  refine ⟨⟨fun c o => ?_, fun _ _ => .inl (by rw [hw]), fun _ _ => by rw [hst],
    fun c => .inl (hcache c).2, h.of_sameOffsets hsame hw hst (fun c i hi => ?_)
      (fun c i hi => ?_) fun c d => ?_⟩, fun f hf => .inl (hpast ▸ hf)⟩
  · unfold CacheState.view
    rw [(hsame c).findCached, hw]
    simp only [(hentry c _).1]
  · rw [(hentry c i).2.2, (hentry c i).1]
    exact h.clean c i hi
  · rw [(hentry c i).1]
    exact h.le_table c i hi
  · rw [(hcache c).2, (hcache d).2]
    exact h.acyclic c d

theorem Keeps.setRef (c : CacheId) (i hits ref : ℕ) :
    Keeps s (s.setEntry c i { s.entry c i with cacheHits := hits, ref := ref }) := by
  refine Keeps.of_hits h (fun c' => ⟨by simp, by simp⟩) (fun c' j => ?_) rfl rfl rfl
  rw [entry_setEntry]
  split_ifs with heq
  · rw [heq.1, heq.2]
    exact ⟨rfl, rfl, rfl⟩
  · exact ⟨rfl, rfl, rfl⟩

theorem Keeps.put (c : CacheId) (i : ℕ) : Keeps s (qcow2CachePut c i s) :=
  Keeps.setRef h c i _ _

theorem Keeps.halveHits (c : CacheId) :
    Keeps s (s.setCache c (qcow2CacheFindEntryToReplace (s.cache c)).2) := by
  refine Keeps.of_hits h (fun c' => ?_) (fun c' j => ?_) rfl rfl rfl
  · by_cases hc : c' = c
    · subst hc
      simp [qcow2CacheFindEntryToReplace]
    · simp [hc]
  · by_cases hc : c' = c
    · subst hc
      simp only [setCache, entry, qcow2CacheFindEntryToReplace, update_self]
      split_ifs <;> exact ⟨rfl, rfl, rfl⟩
    · simp [entry, hc]

/-- An entry that has nothing to write back gets the table that nobody else has. -/
theorem load_keeps {o : ℕ} (hi : i < (s.cache c).size) (hclean : s.Clean c i) (ho : o ≠ 0)
    (hoff : ∀ j < (s.cache c).size, (s.entry c j).offset ≠ o) {s₁ : CacheState α}
    (hs₁ : s₁ = (nextIo (s.setEntry c i { s.entry c i with offset := 0 })).2) :
    Keeps s s₁ ∧ (∀ c' ≠ c, s.SameOffsets s₁ c') ∧ Keeps s (s₁.setEntry c i
      { s₁.entry c i with table := s₁.written c o, cacheHits := 32, offset := o }) := by
  have hk₁ : Keeps s (s.setEntry c i { s.entry c i with offset := 0 }) := by
    refine Keeps.setEntry h hi (fun h0 _ => ?_) (fun h0 => absurd rfl h0)
      (fun h0 => absurd rfl h0) fun h0 => absurd rfl h0
    exact h.clean c i hi h0 (hclean.resolve_right h0)
  have hk₂ : Keeps s s₁ := hs₁ ▸ hk₁.trans (nextIo_flushed hk₁.ok).toKeeps
  have hcache : s₁.cache = (s.setEntry c i { s.entry c i with offset := 0 }).cache := by
    rw [hs₁, nextIo_cache]
  have hsize : (s₁.cache c).size = (s.cache c).size := by
    rw [hcache, size_setEntry]
  have hentry : ∀ j, s₁.entry c j = if j = i then { s.entry c i with offset := 0 }
      else s.entry c j := by
    intro j
    have hj := entry_setEntry s c i { s.entry c i with offset := 0 } c j
    simp only [true_and] at hj
    rw [← hj]
    exact congrArg (fun cache => (cache c).entries j) hcache
  refine ⟨hk₂, fun c' hc => ?_, hk₂.trans (Keeps.setEntry hk₂.ok (hsize.symm ▸ hi) (fun h0 => ?_)
    (fun _ j hj hji => ?_) (fun _ => ?_) fun _ _ => rfl)⟩
  · rw [hs₁]
    exact (sameOffsets_setEntry hc s i _).trans (sameOffsets_nextIo _ c')
  · rw [hentry, if_pos rfl] at h0
    exact absurd rfl h0
  · rw [hentry, if_neg hji]
    exact hoff j (hsize ▸ hj)
  · show s₁.written c o = s₁.view c o
    cases hf : findCached (s₁.cache c) o with
    | none => rw [CacheState.view, if_neg ho, hf]
    | some j =>
      obtain ⟨hj, heq⟩ := findCached_eq_some hf
      have heq' : (s₁.entry c j).offset = o := heq
      rw [hentry] at heq'
      split_ifs at heq' with hji
      · exact absurd heq'.symm ho
      · exact absurd heq' (hoff j (hsize ▸ hj))

/-- The entry that is returned holds the table. -/
theorem get_keeps {o : ℕ} {r : Except Errno ℕ} (ho : o ≠ 0)
    (hs : qcow2CacheGet depth c o s = some (r, s')) :
    Keeps s s' ∧ (∀ i, r = .ok i → i < (s'.cache c).size ∧ (s'.entry c i).offset = o) ∧
      ∀ c' ≠ c, s.SameOffsets s' c' := by
  unfold qcow2CacheGet at hs
  split at hs
  · rename_i i hf
    obtain ⟨hi, hoff⟩ := findCached_eq_some hf
    cases hs
    refine ⟨Keeps.setRef h c i _ _, fun j hj => ?_, fun c' hc => sameOffsets_setEntry hc _ _ _⟩
    obtain rfl := Except.ok.inj hj
    rw [foundEntry, size_setEntry, entry_setEntry, if_pos ⟨rfl, rfl⟩]
    exact ⟨hi, hoff⟩
  · rename_i hf
    split at hs
    · cases hs
    rename_i i cache hrepl
    obtain ⟨hmin, hcache⟩ := Prod.mk.inj hrepl
    have hcache' : (qcow2CacheFindEntryToReplace (s.cache c)).2 = cache := congrArg Prod.snd hrepl
    have hi : i < (s.cache c).size := by
      rcases findMin_mem hmin with hm | hm
      · exact mem_range.1 hm
      · cases hm
    have hk := Keeps.halveHits h c
    rw [hcache'] at hk
    have hsize : ((s.setCache c cache).cache c).size = (s.cache c).size := by
      rw [← hcache]
      simp
    have hsame : ∀ c' ≠ c, s.SameOffsets (s.setCache c cache) c' := by
      intro c' hc
      simp [CacheState.SameOffsets, entry, hc]
    have hoff : ∀ j < (s.cache c).size, ((s.setCache c cache).entry c j).offset ≠ o := by
      intro j hj
      have : ((s.setCache c cache).entry c j).offset = (s.entry c j).offset := by
        rw [← hcache]
        simp only [setCache, entry, update_self]
        split_ifs <;> rfl
      rw [this]
      exact findCached_eq_none hf hj
    split at hs
    · cases hs
    · rename_i e s₁ hfl
      cases hs
      have hfl₁ := (entryFlush_flushed (qcow2CacheFlush_flushed depth) hk.ok (hsize ▸ hi) hfl).1
      exact ⟨hk.trans hfl₁.toKeeps, nofun, fun c' hc => (hsame c' hc).trans (hfl₁.sameOffsets c')⟩
    · rename_i s₁ hfl
      obtain ⟨hfl₁, hcl⟩ := entryFlush_flushed (qcow2CacheFlush_flushed depth) hk.ok
        (hsize ▸ hi) hfl
      have hsize₁ : (s₁.cache c).size = (s.cache c).size := (hfl₁.size c).trans hsize
      have hoff₁ : ∀ j < (s.cache c).size, (s₁.entry c j).offset ≠ o := fun j hj => by
        rw [hfl₁.entries c j]
        exact hoff j hj
      have hsame₁ : ∀ c' ≠ c, s.SameOffsets s₁ c' := fun c' hc =>
        (hsame c' hc).trans (hfl₁.sameOffsets c')
      obtain ⟨hl₁, hload, hl₂⟩ := load_keeps hfl₁.ok (hsize₁.symm ▸ hi) (hcl rfl) ho
        (hsize₁ ▸ hoff₁) rfl
      dsimp only at hs
      split at hs
      · rename_i e b s₂ hio
        cases hs
        rw [hio] at hl₁ hload
        exact ⟨hk.trans (hfl₁.toKeeps.trans hl₁), nofun,
          fun c' hc => (hsame₁ c' hc).trans (hload c' hc)⟩
      · rename_i b s₂ hio
        cases hs
        rw [hio] at hl₂ hload
        refine ⟨hk.trans (hfl₁.toKeeps.trans (hl₂.trans (Keeps.setRef hl₂.ok c i _ _))),
          fun j hj => ?_, fun c' hc => (hsame₁ c' hc).trans ((hload c' hc).trans
            ((sameOffsets_setEntry hc _ _ _).trans (sameOffsets_setEntry hc _ _ _)))⟩
        obtain rfl := Except.ok.inj hj
        have hsize₂ : (s₂.cache c).size = (s.cache c).size := by
          have hcache₂ := nextIo_cache (s₁.setEntry c i { s₁.entry c i with offset := 0 })
          rw [hio] at hcache₂
          rw [hcache₂, size_setEntry, hsize₁]
        rw [foundEntry, size_setEntry, entry_setEntry, if_pos ⟨rfl, rfl⟩,
          size_setEntry, entry_setEntry, if_pos ⟨rfl, rfl⟩, hsize₂]
        exact ⟨hi, rfl⟩

/-- A table changes. -/
theorem editTable_view (hi : i < (s.cache c).size) (ho : (s.entry c i).offset ≠ 0) {edit : α → α}
    (hedit : ∀ x, x ≤ edit x) : CacheOk (editTable c i edit s) ∧
      ∀ c' o, (editTable c i edit s).view c' o =
        if c' = c ∧ o = (s.entry c i).offset then edit (s.view c' o) else s.view c' o := by
  obtain ⟨s', hs'⟩ := @exists_eq _ (editTable c i edit s)
  have hw : s'.written = s.written := by rw [hs']; rfl
  have hself : s'.entry c i =
      { s.entry c i with table := edit (s.entry c i).table, dirty := true } := by
    rw [hs', editTable, entry_setEntry, if_pos ⟨rfl, rfl⟩]
  have hother : ∀ c' j, ¬(c' = c ∧ j = i) → s'.entry c' j = s.entry c' j := by
    intro c' j hne
    rw [hs', editTable, entry_setEntry, if_neg hne]
  have hsame : ∀ c', s.SameOffsets s' c' := by
    refine fun c' => ⟨by simp [hs'], fun j => ?_⟩
    by_cases hji : c' = c ∧ j = i
    · obtain ⟨rfl, rfl⟩ := hji
      rw [hself]
    · rw [hother c' j hji]
  rw [← hs']
  refine ⟨h.of_sameOffsets hsame hw (by rw [hs']; rfl) (fun c' j hj h0 hd => ?_)
    (fun c' j hj h0 => ?_) (by simpa [hs'] using h.acyclic), fun c' o => ?_⟩
  · by_cases hji : c' = c ∧ j = i
    · obtain ⟨rfl, rfl⟩ := hji
      rw [hself] at hd
      cases hd
    · rw [hother c' j hji] at hd ⊢
      exact h.clean c' j hj h0 hd
  · have hle := h.le_table c' j hj h0
    by_cases hji : c' = c ∧ j = i
    · obtain ⟨rfl, rfl⟩ := hji
      rw [hself]
      exact hle.trans (hedit _)
    · rwa [hother c' j hji]
  unfold CacheState.view
  rw [(hsame c').findCached, hw]
  split_ifs with h0 hcase
  · exact absurd (hcase.2.symm.trans h0) ho
  · rfl
  · rename_i hcase
    obtain ⟨rfl, rfl⟩ := hcase
    rw [h.findCached_eq hi ho]
    dsimp only
    rw [hself]
  · rename_i hcase
    cases hf : findCached (s.cache c') o with
    | none => rfl
    | some j =>
      obtain ⟨-, heq⟩ := findCached_eq_some hf
      dsimp only
      rw [hother c' j]
      rintro ⟨rfl, rfl⟩
      exact hcase ⟨rfl, heq.symm⟩

end

end Order

end QemuArm
