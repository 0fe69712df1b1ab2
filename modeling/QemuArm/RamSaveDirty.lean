import QemuArm.RamSaveWalk
import QemuArm.Reach

/-!
# No dirty page is lost

A migration from `ram_save_setup` on : guest writes, synchronisations of the bitmap and calls of
`ram_save_block`, in any order. `MigrationRun.unsent` remembers the pages written since they were
last sent. In a run whose calls avoid the states `LosesLastPage`, a page whose bit is cleared is put
on the stream by that call or is equal to its cached copy, and after `ram_save_complete` no page
is unsent (`ramSave_no_page_lost`). A call in such a state does lose a page (`ramSave_page_lost`).
-/

set_option linter.unusedSectionVars false

namespace QemuArm

open Option Set

variable {α : Type}

/-! ## Runs -/

/-- The sender with the pages that were written since they were last sent. -/
structure MigrationRun (α : Type) where
  st : RamState α
  unsent : Set ℕ

open MigrationRun

/-- What happens between `ram_save_setup` and the end of the migration. -/
inductive RamOp (α : Type) where
  | guestWrite (page : ℕ) (data : α)
  | sync
  | saveBlock (lastStage : Bool) (env : SaveEnv)

section Codec

variable [DecidableEq α] (c : XbzrleCodec α)

/-- The pages still unsent after a call : those that it neither sent nor found equal to their
cached copy. -/
def stillUnsent (st st' : RamState α) (unsent : Set ℕ) : Set ℕ :=
  { x ∈ unsent | ¬Sends c st st' x ∧ ¬(st.migrationBitmap x = true ∧
    st'.migrationBitmap x = false ∧ cachedPage c st x = some (st.mem x)) }

/-- A call of `ram_save_block`. -/
def MigrationRun.saveBlock (lastStage : Bool) (env : SaveEnv) (m : MigrationRun α) :
    Option (MigrationRun α × ℤ) :=
  (ramSaveBlock c lastStage env m.st).map fun r => (⟨r.1, stillUnsent c m.st r.1 m.unsent⟩, r.2)

def migrationStep : RamOp α → MigrationRun α → Option (MigrationRun α)
  | .guestWrite page data, m => some ⟨guestWrite m.st page data, insert page m.unsent⟩
  | .sync, m => some ⟨migrationBitmapSync m.st, m.unsent⟩
  | .saveBlock lastStage env, m => (m.saveBlock c lastStage env).map Prod.fst

/-- The calls that cannot lose a page. -/
def SafeOp (m : MigrationRun α) : RamOp α → Prop
  | .saveBlock _ _ => ¬LosesLastPage m.st
  | _ => True

/-- `ram_save_complete`, up to `migration_end`. -/
def MigrationRun.completeLoop (envs : ℕ → SaveEnv) : ℕ → MigrationRun α → Option (MigrationRun α)
  | 0, _ => none
  | fuel + 1, m => do
    let (m, bytesSent) ← m.saveBlock c true (envs fuel)
    if bytesSent = 0 then some m else completeLoop envs fuel m

def MigrationRun.complete (envs : ℕ → SaveEnv) (m : MigrationRun α) : Option (MigrationRun α) :=
  completeLoop c envs (m.st.ramList.lastRamOffset + 1) ⟨migrationBitmapSync m.st, m.unsent⟩

theorem MigrationRun.map_completeLoop (envs : ℕ → SaveEnv) : ∀ (fuel : ℕ) m,
    (completeLoop c envs fuel m).map st = ramSaveCompleteLoop c envs fuel m.st
  | 0, _ => rfl
  | fuel + 1, m => by
    unfold completeLoop ramSaveCompleteLoop saveBlock
    cases ramSaveBlock c true (envs fuel) m.st with
    | none => rfl
    | some r =>
      simp only [map_some, bind_eq_bind, bind_some]
      split
      · rfl
      · exact map_completeLoop envs fuel _

end Codec

/-! ## The invariant of a run -/

/-- The page belongs to a block. -/
def RAMList.HasPage (l : RAMList) (x : ℕ) : Prop :=
  ∃ b ∈ l.blocks, ∃ o < b.length, x = b.offset + o

theorem RAMList.HasPage.lt {l : RAMList} {x : ℕ} (hx : l.HasPage x) : x < l.lastRamOffset := by
  obtain ⟨b, hb, o, ho, rfl⟩ := hx
  exact page_lt_lastRamOffset hb ho

variable {st : RamState α}

theorem RamState.dirtyAt_of_hasPage {x} (hx : st.ramList.HasPage x)
    (hbit : st.migrationBitmap x = true) : ∃ i o, st.DirtyAt i o := by
  obtain ⟨b, hb, o, ho, rfl⟩ := hx
  obtain ⟨i, hi⟩ := List.mem_iff_getElem?.mp hb
  exact ⟨i, o, b, hi, ho, hbit⟩

/-- An unsent page is dirty in one of the bitmaps. -/
structure RunInv (c : XbzrleCodec α) (m : MigrationRun α) : Prop where
  save : SaveInv c m.st
  pages : m.st.ramList.lastRamOffset ≤ 2 ^ 31
  unsent : ∀ x ∈ m.unsent, m.st.ramList.HasPage x →
    m.st.migrationBitmap x = true ∨ m.st.dirtyMemory x = true

variable {c : XbzrleCodec α} {st' : RamState α}

/-- More bits in the migration bitmap do no harm between calls. -/
theorem SaveInv.of_synced (hinv : SaveInv c st) (h : Synced st st') : SaveInv c st' := by
  obtain ⟨dirty, bits, n, rfl⟩ := h.frame
  refine ⟨hinv.cache, hinv.seen, fun hs => ?_, fun hb => ?_⟩
  · obtain ⟨hbulk, hoff, hall⟩ := hinv.start hs
    exact ⟨hbulk, hoff, fun i b o hi ho => h.keep _ (hall i b o hi ho)⟩
  · obtain ⟨hempty, hbehind⟩ := hinv.bulk hb
    refine ⟨hempty, fun i b hi hs => ?_⟩
    obtain ⟨hlt, hall⟩ := hbehind i b hi hs
    exact ⟨hlt, fun j b' o hj ho hlt => h.keep _ (hall j b' o hj ho hlt)⟩

theorem SaveInv.guestWrite (hinv : SaveInv c st) (page : ℕ) (data : α) :
    SaveInv c (guestWrite st page data) :=
  ⟨hinv.cache, hinv.seen, hinv.start, hinv.bulk⟩

/-- `ram_save_setup` leaves all pages dirty and the cache empty. -/
theorem saveInv_ramSaveSetup {alloc cacheSize} (h : ramSaveSetup c alloc cacheSize st = some st') :
    SaveInv c st' ∧ ∀ x, st'.ramList.HasPage x → st'.migrationBitmap x = true := by
  obtain ⟨cache, hcache, h⟩ := bind_eq_some_iff.mp h
  cases h
  have hsync := synced_migrationBitmapSync (resetRamGlobals { st with
    migrationBitmap := fun x => decide (x < st.ramList.lastRamOffset)
    migrationDirtyPages := st.ramList.lastRamOffset
    cache := cache
    stream := [] })
  refine ⟨SaveInv.of_synced ⟨fun hx => ?_, fun _ hs => ?_, fun _ => ⟨rfl, rfl, ?_⟩,
    fun _ => ⟨fun hx x => ?_, fun _ _ _ hs => ?_⟩⟩ hsync, fun x hx => hsync.keep x ?_⟩
  · have hx : st.useXbzrle = true := hx
    rw [hx] at hcache
    obtain ⟨cache', -, rfl⟩ := map_eq_some_iff.mp hcache
    rfl
  · cases (show none = some _ from hs)
  · intro i b o hb ho
    exact decide_eq_true (RAMList.HasPage.lt ⟨b, List.mem_of_getElem? hb, o, ho, rfl⟩)
  · have hx : st.useXbzrle = true := hx
    rw [hx] at hcache
    obtain ⟨cache', hinit, rfl⟩ := map_eq_some_iff.mp hcache
    exact cached_cacheInit hinit _
  · cases (show none = some _ from hs)
  · rw [hsync.ramList_eq] at hx
    exact decide_eq_true hx.lt

section Codec

variable [DecidableEq α] {c : XbzrleCodec α}

theorem ramSaveBlock_eq_none {lastStage env} (h : st.ramList.blocks = []) :
    ramSaveBlock c lastStage env st = none := by
  have hfirst : st.firstBlock = none := by
    unfold RamState.firstBlock
    split <;> simp [h]
  unfold ramSaveBlock
  rw [hfirst]
  rfl

variable {n : ℤ}

/-- A call that returned. -/
theorem saveDone_ramSaveBlock {lastStage env} (hinv : SaveInv c st)
    (hloss : ¬LosesLastPage st) (h : ramSaveBlock c lastStage env st = some (st', n)) :
    SaveDone c st st' n := by
  refine (ramSaveBlock_spec lastStage env hinv hloss fun hnil => ?_).2 st' n h
  rw [ramSaveBlock_eq_none hnil] at h
  cases h

theorem SaveDone.ramList_eq (h : SaveDone c st st' n) : st'.ramList = st.ramList := by
  obtain ⟨_, _, _, _, _, _, _, _, rfl⟩ := h.frame
  rfl

theorem SaveDone.dirtyMemory_eq (h : SaveDone c st st' n) : st'.dirtyMemory = st.dirtyMemory := by
  obtain ⟨_, _, _, _, _, _, _, _, rfl⟩ := h.frame
  rfl

variable {m : MigrationRun α}

/-- A call keeps the invariant. -/
theorem RunInv.of_saveDone (hinv : RunInv c m) (h : SaveDone c m.st st' n) :
    RunInv c ⟨st', stillUnsent c m.st st' m.unsent⟩ := by
  refine ⟨h.inv, h.ramList_eq ▸ hinv.pages, fun x hx hpage => ?_⟩
  obtain ⟨hmem, hsend, hsame⟩ := hx
  rw [h.ramList_eq] at hpage
  by_cases hbit' : st'.migrationBitmap x = true
  · exact .inl hbit'
  rw [Bool.not_eq_true] at hbit'
  rcases hinv.unsent x hmem hpage with hbit | hdirty
  · rcases h.handled x hbit hbit' with hs | hs
    · exact absurd hs hsend
    · exact absurd ⟨hbit, hbit', hs⟩ hsame
  · exact .inr (by rw [h.dirtyMemory_eq]; exact hdirty)

theorem RunInv.sync (hinv : RunInv c m) : RunInv c ⟨migrationBitmapSync m.st, m.unsent⟩ := by
  have hsync := synced_migrationBitmapSync m.st
  refine ⟨hinv.save.of_synced hsync, hsync.ramList_eq ▸ hinv.pages, fun x hx hpage => ?_⟩
  rw [hsync.ramList_eq] at hpage
  rcases hinv.unsent x hx hpage with hbit | hdirty
  · exact .inl (hsync.keep x hbit)
  · exact (hsync.moved x (hpage.lt.trans_le hinv.pages) hdirty).symm

theorem RunInv.step {m' op} (hinv : RunInv c m) (hok : SafeOp m op)
    (h : migrationStep c op m = some m') : RunInv c m' := by
  cases op with
  | guestWrite page data =>
    cases h
    refine ⟨hinv.save.guestWrite page data, hinv.pages, fun x hx hpage => ?_⟩
    unfold QemuArm.guestWrite
    dsimp only
    by_cases hxp : x = page
    · rw [hxp, Function.update_self]
      exact .inr rfl
    · rw [Function.update_of_ne hxp]
      exact hinv.unsent x (hx.resolve_left hxp) hpage
  | sync =>
    cases h
    exact hinv.sync
  | saveBlock lastStage env =>
    obtain ⟨⟨m₁, n⟩, hr, rfl⟩ := map_eq_some_iff.mp h
    obtain ⟨⟨st', n'⟩, hsave, heq⟩ := map_eq_some_iff.mp hr
    cases heq
    exact hinv.of_saveDone (saveDone_ramSaveBlock hinv.save hok hsave)

theorem runInv_of_reach {alloc cacheSize st₀}
    (hsetup : ramSaveSetup c alloc cacheSize st₀ = some st)
    (hpages : st.ramList.lastRamOffset ≤ 2 ^ 31)
    (h : Reach (migrationStep c) SafeOp ⟨st, univ⟩ m) : RunInv c m := by
  obtain ⟨hinv, hall⟩ := saveInv_ramSaveSetup hsetup
  exact h.invariant ⟨hinv, hpages, fun x _ hx => .inl (hall x hx)⟩
    fun _ _ _ hi hok hs => hi.step hok hs

/-! ## The end of the migration -/

/-- After a page was sent the sender is not in a state that loses a page. -/
theorem SaveDone.not_losesLastPage (h : SaveDone c st st' n) (hn : 0 < n) : ¬LosesLastPage st' := by
  rintro ⟨-, i, b, hb, -, hs, -, -, hdirty, -⟩
  exact h.last_clean hn i b hb hs hdirty

/-- The loop of `ram_save_complete`, with the guest stopped : it ends when nothing is dirty, and
each round before that sends a dirty page. -/
theorem completeLoop_spec (envs : ℕ → SaveEnv) : ∀ (fuel : ℕ) {m : MigrationRun α}, RunInv c m →
    ¬LosesLastPage m.st → (∀ x, m.st.ramList.HasPage x → m.st.dirtyMemory x = false) →
    (∀ m', MigrationRun.completeLoop c envs fuel m = some m' →
      ∀ x, m.st.ramList.HasPage x → x ∉ m'.unsent) ∧
    (m.st.ramList.blocks ≠ [] → (∀ k, (envs k).alloc = true) → m.st.dirtyPages.card < fuel →
      ∃ m', MigrationRun.completeLoop c envs fuel m = some m')
  | 0, _, _, _, _ => ⟨fun _ h => (nomatch h), fun _ _ h => by omega⟩
  | fuel + 1, m, hinv, hloss, hstop => by
    unfold MigrationRun.completeLoop saveBlock
    cases hsave : ramSaveBlock c true (envs fuel) m.st with
    | none =>
      refine ⟨fun _ h => (nomatch h), fun hne ha _ => ?_⟩
      have hsome := (ramSaveBlock_spec true (envs fuel) hinv.save hloss hne).1 (ha fuel)
      rw [hsave] at hsome
      cases hsome
    | some r =>
      obtain ⟨st', n⟩ := r
      have hdone := saveDone_ramSaveBlock hinv.save hloss hsave
      have hinv' := hinv.of_saveDone hdone
      simp only [map_some, bind_eq_bind, bind_some]
      split_ifs with h0
      · refine ⟨fun m' h x hpage hx => ?_, fun _ _ _ => ⟨_, rfl⟩⟩
        cases h
        have hpage' : st'.ramList.HasPage x := by rw [hdone.ramList_eq]; exact hpage
        rcases hinv'.unsent x hx hpage' with hbit | hdirty
        · obtain ⟨i, o, hd⟩ := RamState.dirtyAt_of_hasPage hpage' hbit
          exact (hdone.quiet h0).2.2 i o hd
        · rw [hdone.dirtyMemory_eq, hstop x hpage] at hdirty
          cases hdirty
      · have hpos : 0 < n := lt_of_le_of_ne hdone.nonneg (Ne.symm h0)
        have hrec := completeLoop_spec envs fuel hinv' (hdone.not_losesLastPage hpos)
          (by
            intro x hx
            rw [hdone.ramList_eq] at hx
            show st'.dirtyMemory x = false
            rw [hdone.dirtyMemory_eq]
            exact hstop x hx)
        have hlist : st'.ramList = m.st.ramList := hdone.ramList_eq
        dsimp only at hrec
        rw [hlist] at hrec
        refine ⟨hrec.1, fun hne ha hf => hrec.2 hne ha ?_⟩
        have := hdone.progress hpos
        omega

/-- With RAM blocks that end by page `2 ^ 31`, in a run that avoids the states `LosesLastPage`, no
call clears the bit of a page that it does not send and that differs from its cached copy, and
`ram_save_complete` leaves no page unsent. -/
theorem ramSave_no_page_lost (t : RamPage) (alloc : Bool) (cacheSize : ℤ)
    (st₀ st : RamState t.Data) (hsetup : ramSaveSetup t.codec alloc cacheSize st₀ = some st)
    (hpages : st.ramList.lastRamOffset ≤ 2 ^ 31) (m : MigrationRun t.Data)
    (hrun : Reach (migrationStep t.codec) SafeOp ⟨st, Set.univ⟩ m) :
    (¬LosesLastPage m.st → ∀ lastStage env,
      (env.alloc = true → m.st.ramList.blocks ≠ [] →
        ∃ st' n, ramSaveBlock t.codec lastStage env m.st = some (st', n)) ∧
      ∀ st' n, ramSaveBlock t.codec lastStage env m.st = some (st', n) →
        ∀ x, m.st.migrationBitmap x = true → st'.migrationBitmap x = false →
          Sends t.codec m.st st' x ∨ cachedPage t.codec m.st x = some (m.st.mem x)) ∧
    (¬LosesLastPage (migrationBitmapSync m.st) → ∀ envs,
      ((∀ k, (envs k).alloc = true) → m.st.ramList.blocks ≠ [] →
        ∃ m', m.complete t.codec envs = some m') ∧
      ∀ m', m.complete t.codec envs = some m' → ∀ x, m.st.ramList.HasPage x → x ∉ m'.unsent) := by
  have hinv := runInv_of_reach hsetup hpages hrun
  refine ⟨fun hloss lastStage env => ⟨fun ha hne => ?_, fun st' n h => ?_⟩, fun hloss envs => ?_⟩
  · obtain ⟨r, hr⟩ := Option.isSome_iff_exists.mp
      ((ramSaveBlock_spec lastStage env hinv.save hloss hne).1 ha)
    exact ⟨r.1, r.2, hr⟩
  · exact (saveDone_ramSaveBlock hinv.save hloss h).handled
  · have hlist := (synced_migrationBitmapSync m.st).ramList_eq
    have hstop : ∀ x, (migrationBitmapSync m.st).ramList.HasPage x →
        (migrationBitmapSync m.st).dirtyMemory x = false := by
      rintro x ⟨b, hb, o, ho, rfl⟩
      rw [hlist] at hb
      exact migrationBitmapSync_clear hb ho
    obtain ⟨hend, hret⟩ := completeLoop_spec envs (m.st.ramList.lastRamOffset + 1) hinv.sync hloss
      hstop
    dsimp only at hend hret
    rw [hlist] at hend hret
    refine ⟨fun ha hne => hret hne ha ?_, hend⟩
    have hcard := Finset.card_filter_le
      (Finset.range (migrationBitmapSync m.st).ramList.lastRamOffset)
      fun x => (migrationBitmapSync m.st).migrationBitmap x = true
    rw [Finset.card_range, hlist] at hcard
    unfold RamState.dirtyPages
    rw [hlist]
    omega

end Codec

/-! ## A page that is lost -/

/-- The 1 KiB pages of ARM targets. -/
def armRamPage : RamPage := ⟨⟨10, Nat.succ_pos 9, Nat.le_add_right 10 6⟩, by decide, by decide⟩

/-- A page that is not zero. -/
def onesPage : armRamPage.Data :=
  ⟨List.replicate armRamPage.size 1, List.length_replicate⟩

/-- One block of two pages. -/
def twoPages : RAMList where
  blocks := [⟨1, "ram", 0, 2, by decide⟩]
  ptr_nodup := by decide
  idstr_nodup := by decide
  disjoint := by simp

/-- A machine with two pages of RAM, before the migration. -/
def twoPageMachine : RamState armRamPage.Data where
  ramList := twoPages
  version := 0
  useXbzrle := false
  mem _ := onesPage
  dirtyMemory _ := false
  migrationBitmap _ := false
  migrationDirtyPages := 0
  lastSeenBlock := none
  lastSentBlock := none
  lastOffset := 0
  lastVersion := 0
  ramBulkStage := false
  cache := none
  stream := []

/-- A transport without a hook, and memory enough. -/
def plainEnv : SaveEnv := ⟨fun _ => .notSupp, true⟩

/-- The machine after `ram_save_setup`. -/
def twoPageSetup : Option (RamState armRamPage.Data) :=
  ramSaveSetup armRamPage.codec true 0 twoPageMachine

/-- Both pages are sent. -/
def sendBoth : List (RamOp armRamPage.Data) :=
  [.saveBlock false plainEnv, .saveBlock false plainEnv]

/-- The guest writes to the second page, and the bitmap is synchronised. -/
def writeSecond (m : MigrationRun armRamPage.Data) : MigrationRun armRamPage.Data :=
  ⟨migrationBitmapSync (guestWrite m.st 1 armRamPage.codec.zero), insert 1 m.unsent⟩

/-- What the next call of the last stage returns, the bit of the second page before and after it,
and how many pages it puts on the stream; and whether there is a cache. -/
def observeCall (m : MigrationRun armRamPage.Data) : Option (ℤ × Bool × Bool × Bool × Bool) :=
  (ramSaveBlock armRamPage.codec true plainEnv m.st).map fun r =>
    (r.2, m.st.migrationBitmap 1, r.1.migrationBitmap 1,
      r.1.stream.length == m.st.stream.length, m.st.cache.isNone)

theorem observe_lostPage :
    (twoPageSetup.bind fun st =>
      (sendBoth.foldlM (fun m op => migrationStep armRamPage.codec op m) ⟨st, univ⟩).bind
        fun m => observeCall (writeSecond m)) = some (0, true, false, true, true) := by
  decide +kernel

/-- The second page is written after it was sent; the next call, which ends the loop of
`ram_save_complete`, clears its bit and sends nothing. -/
theorem ramSave_page_lost :
    ∃ (st : RamState armRamPage.Data) (m m' : MigrationRun armRamPage.Data),
      ramSaveSetup armRamPage.codec true 0 twoPageMachine = some st ∧
      Reach (migrationStep armRamPage.codec) (fun _ _ => True) ⟨st, Set.univ⟩ m ∧
      m.saveBlock armRamPage.codec true plainEnv = some (m', 0) ∧
      m.st.migrationBitmap 1 = true ∧ m'.st.migrationBitmap 1 = false ∧
      ¬Sends armRamPage.codec m.st m'.st 1 ∧ cachedPage armRamPage.codec m.st 1 = none ∧
      1 ∈ m'.unsent := by
  obtain ⟨st, hst, h⟩ := Option.bind_eq_some_iff.mp observe_lostPage
  obtain ⟨m, hm, h⟩ := Option.bind_eq_some_iff.mp h
  obtain ⟨⟨st', n⟩, hr, heq⟩ := Option.map_eq_some_iff.mp h
  simp only [Prod.mk.injEq, beq_iff_eq, Option.isNone_iff_eq_none] at heq
  obtain ⟨rfl, hbit, hbit', hlen, hcache⟩ := heq
  have hpage : cachedPage armRamPage.codec (writeSecond m).st 1 = none := by
    unfold cachedPage
    rw [hcache]
    rfl
  have hsend : ¬Sends armRamPage.codec (writeSecond m).st st' 1 := by
    rintro ⟨_, _, _, _, _, _, r, hstream, _⟩
    rw [hstream] at hlen
    simp at hlen
  have hreach : Reach (migrationStep armRamPage.codec) (fun _ _ => True) ⟨st, univ⟩ m :=
    Reach.foldlM sendBoth (fun _ _ _ => trivial) Reach.refl hm
  have hwritten : Reach (migrationStep armRamPage.codec) (fun _ _ => True) ⟨st, univ⟩
      (writeSecond m) :=
    (hreach.tail (i := .guestWrite 1 armRamPage.codec.zero) trivial rfl).tail (i := .sync) trivial
      rfl
  refine ⟨st, writeSecond m,
    ⟨st', stillUnsent armRamPage.codec (writeSecond m).st st' (writeSecond m).unsent⟩, hst,
    hwritten, ?_, hbit, hbit', hsend, hpage, mem_insert 1 _, hsend, ?_⟩
  · unfold saveBlock
    rw [hr]
    rfl
  · rintro ⟨-, -, hsame⟩
    rw [hpage] at hsame
    cases hsame

/-- The theorem at the same machine, with the second page written before anything is sent. -/
theorem ramSave_no_page_lost_twoPages :
    ∃ st, ramSaveSetup armRamPage.codec true 0 twoPageMachine = some st ∧
      ∀ lastStage st' n,
        ramSaveBlock armRamPage.codec lastStage plainEnv (writeSecond ⟨st, Set.univ⟩).st =
          some (st', n) →
        ∀ x, (writeSecond ⟨st, Set.univ⟩).st.migrationBitmap x = true →
          st'.migrationBitmap x = false →
          Sends armRamPage.codec (writeSecond ⟨st, Set.univ⟩).st st' x ∨
            cachedPage armRamPage.codec (writeSecond ⟨st, Set.univ⟩).st x =
              some ((writeSecond ⟨st, Set.univ⟩).st.mem x) := by
  obtain ⟨st, hst, -⟩ := Option.bind_eq_some_iff.mp observe_lostPage
  have hreach : Reach (migrationStep armRamPage.codec) SafeOp ⟨st, univ⟩ (writeSecond ⟨st, univ⟩) :=
    (Reach.refl.tail (i := .guestWrite 1 armRamPage.codec.zero) trivial rfl).tail (i := .sync)
      trivial rfl
  obtain ⟨hseen, hpages⟩ : (writeSecond ⟨st, univ⟩).st.lastSeenBlock = none ∧
      st.ramList.lastRamOffset = 2 := by
    have hobs : (twoPageSetup.map fun st => ((writeSecond ⟨st, univ⟩).st.lastSeenBlock,
        st.ramList.lastRamOffset)) = some (none, 2) := by decide +kernel
    rw [hst] at hobs
    exact Prod.mk.inj (Option.some.inj hobs)
  refine ⟨st, hst, fun lastStage st' n h => ?_⟩
  refine (((ramSave_no_page_lost armRamPage true 0 twoPageMachine st hst
    (hpages.trans_le (by decide)) _ hreach).1 ?_) lastStage plainEnv).2 st' n h
  rintro ⟨-, i, b, -, -, hs, -⟩
  rw [hseen] at hs
  cases hs

end QemuArm
