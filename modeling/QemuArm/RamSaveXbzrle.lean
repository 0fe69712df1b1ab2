import QemuArm.RamSaveDirty

/-!
# The XBZRLE cache and the destination

The destination applies the pages of the stream in order (`loadRecord`, as `ram_load` does). A delta
is decoded over the page that the destination has, and was encoded over the cached copy, so the
two have to be the same.

Between `ram_save_setup` and `ram_save_complete` every entry of the cache is the destination's page,
unless `reset_ram_globals` goes back to the bulk stage with pages in the cache. In the last stage a
delta is sent without an update of the cache; there the entries of the pages that are still to be
sent are the destination's. Either way every delta is decoded over exactly the page that it was
encoded over (`xbzrleCache_coherent`). In the last stage the entry of a page that was sent need not
be the destination's, and after such a reset neither (`xbzrleCache_stale`).
-/

set_option linter.unusedSectionVars false

namespace QemuArm

open List Option

variable {α : Type}

/-! ## The destination -/

/-- The destination : the block of the last page, and the pages of each block. -/
structure RamDest (α : Type) where
  block : Option String
  mem : String → ℕ → α

/-- A page for the destination. -/
def RamDest.write (d : RamDest α) (id : String) (offset : ℕ) (data : α) : RamDest α :=
  ⟨some id, fun id' o => if id' = id ∧ o = offset then data else d.mem id' o⟩

/-- `host_from_stream_offset` : the block that the header names, among the destination's blocks,
or the block of the page before. -/
def hostBlock (names : List String) (d : RamDest α) (r : PageRecord α) : Option String :=
  match r.block with
  | none => d.block
  | some id => if id ∈ names then some id else none

/-- What `ram_load` does with a page. A page that the transport took over is delivered by it. -/
def loadRecord (c : XbzrleCodec α) (names : List String) (d : RamDest α) (r : PageRecord α) :
    Option (RamDest α) := do
  let id ← hostBlock names d r
  match r.body with
  | .compress => some (d.write id r.offset c.zero)
  | .page data => some (d.write id r.offset data)
  | .xbzrle bytes => (c.decode (d.mem id r.offset) bytes).map (d.write id r.offset)
  | .control data => some (d.write id r.offset data)

/-- The destination after the stream. -/
def loadStream (c : XbzrleCodec α) (names : List String) (d : RamDest α)
    (stream : List (PageRecord α)) : Option (RamDest α) :=
  stream.foldlM (loadRecord c names) d

/-! ## What a call does to the cache and the stream -/

/-- The one page that a call puts on the stream. -/
structure SentPage (c : XbzrleCodec α) (lastStage : Bool) (env : SaveEnv) (st st' : RamState α)
    (b : RAMBlock) (o : ℕ) (r : PageRecord α) : Prop where
  mem_blocks : b ∈ st.ramList.blocks
  lt_length : o < b.length
  clear : st'.migrationBitmap (b.offset + o) = false
  last : st'.lastSentBlock = some b.ptr
  stream : st'.stream = st.stream ++ [r]
  record : RecordOf c st b o r
  dirty : st.migrationBitmap (b.offset + o) = true ∨ st.useXbzrle = false ∨
    cachedPage c st (b.offset + o) = none
  cache : st'.cache = st.cache ∧ (st.useXbzrle = false ∨ lastStage = true ∨
      env.control (b.offset + o) ≠ .notSupp ∨ cachedPage c st (b.offset + o) = none) ∨
    ∃ cache cache', st.cache = some cache ∧ st'.cache = some cache' ∧
      Stores cache cache' ((b.offset + o) * c.pageSize) (st.mem (b.offset + o))

/-- The effect of a call. -/
structure CallEffect (c : XbzrleCodec α) (lastStage : Bool) (env : SaveEnv)
    (st st' : RamState α) : Prop where
  frame : ∃ bits count seen sent off bulk cache stream, st' = { st with
    migrationBitmap := bits, migrationDirtyPages := count, lastSeenBlock := seen
    lastSentBlock := sent, lastOffset := off, ramBulkStage := bulk, cache := cache
    stream := stream }
  bits : ∀ x, st'.migrationBitmap x = true → st.migrationBitmap x = true
  bulk : st'.ramBulkStage = true → st.ramBulkStage = true ∧ st'.cache = st.cache
  sent : (st'.cache = st.cache ∧ st'.stream = st.stream ∧
      st'.lastSentBlock = st.lastSentBlock) ∨ ∃ b o r, SentPage c lastStage env st st' b o r

/-- In the bulk stage nothing is cached. -/
def BulkEmpty (c : XbzrleCodec α) (st : RamState α) : Prop :=
  st.ramBulkStage = true → st.useXbzrle = true → ∀ x, cachedPage c st x = none

variable {b : RAMBlock}

section Effect

variable {c : XbzrleCodec α} {lastStage : Bool} {env : SaveEnv} {st st₁ st' : RamState α}

/-- A call from a state with fewer bits, or with the bulk stage ended. -/
theorem CallEffect.of_congr (h : CallEffect c lastStage env st₁ st')
    (hframe : ∃ bits count bulk, st₁ = { st with
      migrationBitmap := bits, migrationDirtyPages := count, ramBulkStage := bulk })
    (hbits : ∀ x, st₁.migrationBitmap x = true → st.migrationBitmap x = true)
    (hbulk : st₁.ramBulkStage = true → st.ramBulkStage = true) :
    CallEffect c lastStage env st st' := by
  obtain ⟨bits, count, bulk, rfl⟩ := hframe
  refine ⟨?_, fun x hx => hbits x (h.bits x hx), fun hb => ?_, ?_⟩
  · obtain ⟨_, _, _, _, _, _, _, _, rfl⟩ := h.frame
    exact ⟨_, _, _, _, _, _, _, _, rfl⟩
  · obtain ⟨hb₁, hc⟩ := h.bulk hb
    exact ⟨hbulk hb₁, hc⟩
  · rcases h.sent with hq | ⟨b, o, r, hs⟩
    · exact .inl hq
    · refine .inr ⟨b, o, r, hs.mem_blocks, hs.lt_length, hs.clear, hs.last, hs.stream,
        hs.record.congr rfl rfl rfl, ?_, hs.cache⟩
      exact hs.dirty.imp_left (hbits _)

/-- The page found, in the bulk stage or outside it. -/
theorem findAndReset_cases (st : RamState α) (b : RAMBlock) (start : ℕ) :
    ∃ off, (off < b.length ∧
        (st.migrationBitmap (b.offset + off) = true ∨ st.ramBulkStage = true) ∧
        migrationBitmapFindAndResetDirty st b start = (st.clearDirty (b.offset + off), off)) ∨
      b.length ≤ off ∧ migrationBitmapFindAndResetDirty st b start = (st, off) := by
  by_cases hbulk : st.ramBulkStage = true ∧ 0 < start
  · refine ⟨start + 1, ?_⟩
    rw [findAndReset_bulk hbulk.1 hbulk.2]
    by_cases hlt : start + 1 < b.length
    · exact .inl ⟨hlt, .inr hbulk.1, by rw [if_pos hlt]⟩
    · exact .inr ⟨by omega, by rw [if_neg hlt]⟩
  · have hcond : ¬(st.ramBulkStage = true ∧ b.offset < b.offset + start) := fun h =>
      hbulk ⟨h.1, by omega⟩
    obtain ⟨next, hnext⟩ : ∃ n, n = findNextBit st.migrationBitmap (b.offset + b.length)
      (b.offset + start) := ⟨_, rfl⟩
    refine ⟨next - b.offset, ?_⟩
    unfold migrationBitmapFindAndResetDirty
    dsimp only
    rw [if_neg hcond, ← hnext]
    by_cases hlt : next < b.offset + b.length
    · have hfound := (findNextBit_spec _ _ _).2.2 (hnext ▸ hlt)
      rw [← hnext] at hfound
      have hbase : b.offset + (next - b.offset) = next := by omega
      rw [if_pos hlt, hbase]
      exact .inl ⟨by omega, .inl hfound.2, rfl⟩
    · rw [if_neg hlt]
      exact .inr ⟨by omega, rfl⟩

theorem CallEffect.of_quiet {seen off} :
    CallEffect c lastStage env st { st with lastSeenBlock := seen, lastOffset := off } :=
  ⟨⟨_, _, _, _, _, _, _, _, rfl⟩, fun _ h => h, fun h => ⟨h, rfl⟩, .inl ⟨rfl, rfl, rfl⟩⟩

/-- The page of the outcome was sent. -/
theorem CallEffect.of_outcome {off cache
    recs n} (hb : b ∈ st.ramList.blocks) (hoff : off < b.length) (hempty : BulkEmpty c st)
    (hdirty : st.migrationBitmap (b.offset + off) = true ∨ st.ramBulkStage = true)
    (hout : PageOutcome c lastStage env (st.clearDirty (b.offset + off)) b off cache recs n)
    (hn : 0 < n) :
    CallEffect c lastStage env st { st.clearDirty (b.offset + off) with
      cache := cache
      stream := st.stream ++ recs
      lastSentBlock := some b.ptr
      lastSeenBlock := some b.ptr
      lastOffset := off } := by
  have hnone : st.ramBulkStage = true → st.useXbzrle = false ∨
      cachedPage c st (b.offset + off) = none := by
    intro hb'
    cases hx : st.useXbzrle with
    | false => exact .inl rfl
    | true => exact .inr (hempty hb' hx _)
  have hdirty' : st.migrationBitmap (b.offset + off) = true ∨ st.useXbzrle = false ∨
      cachedPage c st (b.offset + off) = none := hdirty.imp_right hnone
  have hclear : (st.clearDirty (b.offset + off)).migrationBitmap (b.offset + off) = false :=
    Function.update_self ..
  have hbits : ∀ x, (st.clearDirty (b.offset + off)).migrationBitmap x = true →
      st.migrationBitmap x = true := fun x hx => (clearDirty_bit hx).1
  cases hout with
  | identical => omega
  | kept _ hr hwhy =>
    refine ⟨⟨_, _, _, _, _, _, _, _, rfl⟩, hbits, fun h => ⟨h, rfl⟩, .inr ⟨b, off, _, hb, hoff,
      hclear, rfl, rfl, hr.congr rfl rfl rfl, hdirty', .inl ⟨rfl, ?_⟩⟩⟩
    rcases hwhy with h | h | h | h | h
    · rcases hnone h with hx | hx
      · exact .inl hx
      · exact .inr (.inr (.inr hx))
    · exact .inl h
    · exact .inr (.inl h)
    · exact .inr (.inr (.inl h))
    · exact .inr (.inr (.inr h))
  | stored _ _ hb' hr hc hs =>
    refine ⟨⟨_, _, _, _, _, _, _, _, rfl⟩, hbits, fun h => ?_, .inr ⟨b, off, _, hb, hoff,
      hclear, rfl, rfl, hr.congr rfl rfl rfl, hdirty', .inr ⟨_, _, hc, rfl, hs⟩⟩⟩
    have hb' : st.ramBulkStage = false := hb'
    have h : st.ramBulkStage = true := h
    rw [hb'] at h
    cases h

variable [DecidableEq α]

/-- Every call of the loop puts at most one page on the stream. -/
theorem callEffect_ramSaveBlockLoop : ∀ (fuel : ℕ) {st st' : RamState α} {b : RAMBlock}
    {start : ℕ} {complete : Bool} {n n' : ℤ}, b ∈ st.ramList.blocks → BulkEmpty c st →
    ramSaveBlockLoop c lastStage env fuel st b start complete n = some (st', n') →
      CallEffect c lastStage env st st'
  | 0, _, _, _, _, _, _, _, _, _, h => nomatch h
  | fuel + 1, st, st', b, start, complete, n, n', hb, hempty, h => by
    obtain ⟨off, hfound⟩ := findAndReset_cases st b start
    unfold ramSaveBlockLoop at h
    rcases hfound with ⟨hoff, hdirty, hfind⟩ | ⟨hoff, hfind⟩
    · have hcongr : ∀ {st'}, CallEffect c lastStage env (st.clearDirty (b.offset + off)) st' →
          CallEffect c lastStage env st st' := fun h =>
        h.of_congr ⟨_, _, _, rfl⟩ (fun x hx => (clearDirty_bit hx).1) fun hb => hb
      rw [hfind] at h
      dsimp only at h
      split at h
      · cases h
        exact hcongr CallEffect.of_quiet
      rw [if_neg (Nat.not_le.mpr hoff)] at h
      obtain ⟨⟨st₂, n₂⟩, hpage, h⟩ := bind_eq_some_iff.mp h
      obtain ⟨cache', recs, hout, rfl⟩ := ramSavePage_outcome hpage
      split at h
      · rename_i hn
        cases h
        exact CallEffect.of_outcome hb hoff hempty hdirty hout hn
      · rename_i hn
        cases hout with
        | identical hx hb' hsame =>
          rw [append_nil] at h
          exact hcongr (callEffect_ramSaveBlockLoop fuel hb hempty h)
        | kept hn' | stored hn' => exact absurd hn' hn
    · rw [hfind] at h
      dsimp only at h
      split at h
      · cases h
        exact CallEffect.of_quiet
      split at h
      · rename_i next _ hnext
        exact callEffect_ramSaveBlockLoop fuel (mem_of_getElem? hnext) hempty h
      · rename_i first _ hfirst
        have hempty' : BulkEmpty c { st with ramBulkStage := false } := fun hb =>
          absurd hb Bool.false_ne_true
        have hmem : first ∈ ({ st with ramBulkStage := false } : RamState α).ramList.blocks :=
          mem_of_mem_head? hfirst
        have heff := callEffect_ramSaveBlockLoop fuel hmem hempty' h
        exact heff.of_congr ⟨_, _, _, rfl⟩ (fun _ h => h) fun hb => absurd hb Bool.false_ne_true
      · cases h

theorem callEffect_ramSaveBlock {n} (hempty : BulkEmpty c st)
    (h : ramSaveBlock c lastStage env st = some (st', n)) : CallEffect c lastStage env st st' := by
  obtain ⟨b, hb, h⟩ := bind_eq_some_iff.mp h
  refine callEffect_ramSaveBlockLoop _ ?_ hempty h
  unfold RamState.firstBlock at hb
  split at hb
  · exact mem_of_getElem? hb
  · exact mem_of_mem_head? hb

end Effect

/-! ## Coherence -/

/-- The names of the blocks, which source and destination share. -/
def RAMList.names (l : RAMList) : List String := l.blocks.map RAMBlock.idstr

theorem RAMList.eq_of_idstr {l : RAMList} {a} (ha : a ∈ l.blocks) (hb : b ∈ l.blocks)
    (h : a.idstr = b.idstr) : a = b :=
  inj_on_of_nodup_map l.idstr_nodup ha hb h

/-- `d` is the destination after the stream, and the entries of the cache for the pages in `live`
are its pages. -/
structure Coherent (c : XbzrleCodec α) (d₀ : RamDest α) (live : ℕ → Prop) (st : RamState α)
    (d : RamDest α) : Prop where
  load : loadStream c st.ramList.names d₀ st.stream = some d
  current : ∀ b ∈ st.ramList.blocks, st.lastSentBlock = some b.ptr → d.block = some b.idstr
  off : st.useXbzrle = false → st.cache = none
  bulk : BulkEmpty c st
  entries : ∀ cache, st.cache = some cache → ∀ addr data, cache.cached addr = some data →
    ∃ b ∈ st.ramList.blocks, ∃ o < b.length, addr = (b.offset + o) * c.pageSize ∧
      (live (b.offset + o) → d.mem b.idstr o = data)

namespace Coherent

variable {c : XbzrleCodec α} {d₀ d : RamDest α} {live live' : ℕ → Prop} {st st' : RamState α}

/-- Nothing is owed for pages that are no longer live. -/
theorem mono (h : Coherent c d₀ live st d) (hl : ∀ x, live' x → live x) :
    Coherent c d₀ live' st d where
  load := h.load
  current := h.current
  off := h.off
  bulk := h.bulk
  entries cache hc addr data hd := by
    obtain ⟨b, hb, o, ho, ha, hm⟩ := h.entries cache hc addr data hd
    exact ⟨b, hb, o, ho, ha, fun hx => hm (hl _ hx)⟩

/-- Steps that leave the stream and the cache alone. -/
theorem of_eq (h : Coherent c d₀ live st d) (hl : st'.ramList = st.ramList)
    (hs : st'.stream = st.stream) (hsent : st'.lastSentBlock = st.lastSentBlock)
    (hx : st'.useXbzrle = st.useXbzrle) (hb : st'.ramBulkStage = st.ramBulkStage)
    (hc : st'.cache = st.cache) : Coherent c d₀ live st' d where
  load := by rw [hl, hs]; exact h.load
  current := by rw [hl, hsent]; exact h.current
  off := by rw [hx, hc]; exact h.off
  bulk hb' hx' x := by
    rw [cachedPage_congr hc]
    exact h.bulk (hb ▸ hb') (hx ▸ hx') x
  entries := by rw [hl, hc]; exact h.entries

/-- A page of the cache that is live is the destination's. -/
theorem mem_eq (h : Coherent c d₀ live st d) {o data} (hb : b ∈ st.ramList.blocks)
    (ho : o < b.length) (hd : cachedPage c st (b.offset + o) = some data)
    (hlive : live (b.offset + o)) : d.mem b.idstr o = data := by
  obtain ⟨cache, hc, hd⟩ := bind_eq_some_iff.mp hd
  obtain ⟨b', hb', o', ho', ha, hm⟩ := h.entries cache hc _ data hd
  have hpage : b.offset + o = b'.offset + o' := Nat.eq_of_mul_eq_mul_right c.pageSize_pos ha
  obtain ⟨i, hi⟩ := mem_iff_getElem?.mp hb
  obtain ⟨j, hj⟩ := mem_iff_getElem?.mp hb'
  obtain ⟨rfl, rfl⟩ := RAMList.page_inj hi hj ho ho' hpage
  obtain rfl := some.inj (hi.symm.trans hj)
  exact hm hlive

variable {lastStage : Bool} {env : SaveEnv} {b : RAMBlock} {o : ℕ} {r : PageRecord α}

section

variable (h : Coherent c d₀ live st d) (hs : SentPage c lastStage env st st' b o r)
include h hs

/-- The destination finds the block of a page that was sent. -/
theorem hostBlock_eq : hostBlock st.ramList.names d r = some b.idstr := by
  unfold hostBlock
  rcases hs.record.names with hname | ⟨hcont, hlast⟩
  · rw [hname]
    exact if_pos (mem_map_of_mem hs.mem_blocks)
  · rw [hcont]
    exact h.current b hs.mem_blocks hlast

/-- A delta is over the page that the destination has. -/
theorem delta_over_destination (hlive : ∀ x, st.migrationBitmap x = true → live x)
    {bytes} (hr : r.body = .xbzrle bytes) :
    cachedPage c st (b.offset + o) = some (d.mem b.idstr o) ∧
      c.encode (d.mem b.idstr o) (st.mem (b.offset + o)) = .delta bytes := by
  have hcarries := hs.record.carries
  rw [hr] at hcarries
  obtain ⟨old, hold, henc⟩ := hcarries
  have hdirty : st.migrationBitmap (b.offset + o) = true := by
    rcases hs.dirty with hd | hx | hnone
    · exact hd
    · unfold cachedPage at hold
      rw [h.off hx] at hold
      cases hold
    · rw [hnone] at hold
      cases hold
  rw [h.mem_eq hs.mem_blocks hs.lt_length hold (hlive _ hdirty)]
  exact ⟨hold, henc⟩

/-- The destination gets the page as the guest has it. -/
theorem loadRecord_eq (hlive : ∀ x, st.migrationBitmap x = true → live x) :
    loadRecord c st.ramList.names d r = some (d.write b.idstr o (st.mem (b.offset + o))) := by
  unfold loadRecord
  rw [h.hostBlock_eq hs, hs.record.offset_eq]
  simp only [bind_eq_bind, bind_some]
  have hcarries := hs.record.carries
  cases hr : r.body with
  | compress =>
    rw [hr] at hcarries
    have hz : st.mem (b.offset + o) = c.zero := hcarries
    rw [hz]
  | page data | control data =>
    rw [hr] at hcarries
    have hd : data = st.mem (b.offset + o) := hcarries
    rw [hd]
  | xbzrle bytes =>
    dsimp only
    rw [c.decode_delta (h.delta_over_destination hs hlive hr).2]
    rfl

/-- The other entries are about other pages of the destination. -/
theorem entries_of_sent {cache} (hc : st.cache = some cache) {addr : ℕ}
    {data data' : α} (hd : cache.cached addr = some data)
    (hne : addr ≠ (b.offset + o) * c.pageSize) (hl : ∀ x, live' x → live x) :
    ∃ b' ∈ st.ramList.blocks, ∃ o' < b'.length, addr = (b'.offset + o') * c.pageSize ∧
      (live' (b'.offset + o') → (d.write b.idstr o data').mem b'.idstr o' = data) := by
  obtain ⟨b', hb', o', ho', ha, hm⟩ := h.entries cache hc addr data hd
  refine ⟨b', hb', o', ho', ha, fun hx => ?_⟩
  have hother : ¬(b'.idstr = b.idstr ∧ o' = o) := by
    rintro ⟨hid, rfl⟩
    rw [RAMList.eq_of_idstr hb' hs.mem_blocks hid] at ha
    exact hne ha
  unfold RamDest.write
  dsimp only
  rw [if_neg hother]
  exact hm (hl _ hx)

end

/-- A call keeps the entries in step with the destination; in the last stage those of the pages that
are still to be sent. -/
theorem of_effect (h : Coherent c d₀ live st d) (heff : CallEffect c lastStage env st st')
    (henv : ∀ x, env.control x = .notSupp) (hlive : ∀ x, st.migrationBitmap x = true → live x)
    (hlive' : ∀ x, live' x → live x ∧ (lastStage = true → st'.migrationBitmap x = true)) :
    ∃ d', Coherent c d₀ live' st' d' := by
  obtain ⟨bits, count, seen, sent, off, bulk, cache', stream, hst'⟩ := heff.frame
  have hlist : st'.ramList = st.ramList := by rw [hst']
  have hx : st'.useXbzrle = st.useXbzrle := by rw [hst']
  have hempty : BulkEmpty c st' := by
    intro hb' hx' x
    obtain ⟨hb, hc⟩ := heff.bulk hb'
    rw [cachedPage_congr hc]
    exact h.bulk hb (hx ▸ hx') x
  rcases heff.sent with ⟨hc, hstream, hsent⟩ | ⟨b, o, r, hs⟩
  · refine ⟨d, ⟨by rw [hlist, hstream]; exact h.load, by rw [hlist, hsent]; exact h.current,
      by rw [hx, hc]; exact h.off, hempty, ?_⟩⟩
    rw [hlist, hc]
    exact (h.mono fun x hx => (hlive' x hx).1).entries
  · refine ⟨d.write b.idstr o (st.mem (b.offset + o)), ⟨?_, ?_, ?_, hempty, ?_⟩⟩
    · rw [hlist, hs.stream]
      unfold loadStream
      rw [foldlM_append]
      have hload := h.load
      unfold loadStream at hload
      rw [hload, bind_eq_bind, bind_some, foldlM_cons, h.loadRecord_eq hs hlive]
      rfl
    · rw [hlist, hs.last]
      intro b' hb' hp
      obtain rfl : b' = b :=
        inj_on_of_nodup_map st.ramList.ptr_nodup hb' hs.mem_blocks (some.inj hp).symm
      rfl
    · rw [hx]
      intro hoff
      rcases hs.cache with ⟨hc, -⟩ | ⟨cache, _, hc, -⟩
      · rw [hc]
        exact h.off hoff
      · rw [h.off hoff] at hc
        cases hc
    · rw [hlist]
      intro cache₁ hc₁ addr data hd
      by_cases haddr : addr = (b.offset + o) * c.pageSize
      · refine ⟨b, hs.mem_blocks, o, hs.lt_length, haddr, fun hl => ?_⟩
        have hwrite : (d.write b.idstr o (st.mem (b.offset + o))).mem b.idstr o =
            st.mem (b.offset + o) := if_pos ⟨rfl, rfl⟩
        rw [hwrite]
        rcases hs.cache with ⟨hc, hwhy⟩ | ⟨cache, cache₂, hc, hc₂, hstores⟩
        · -- The entry was not touched : there is none, or the page is no longer live.
          rw [hc] at hc₁
          rcases hwhy with hoff | hlast | hctl | hnone
          · rw [h.off hoff] at hc₁
            cases hc₁
          · have hbit := (hlive' _ hl).2 hlast
            rw [hs.clear] at hbit
            cases hbit
          · exact absurd (henv _) hctl
          · unfold cachedPage at hnone
            rw [hc₁, bind_some, ← haddr, hd] at hnone
            cases hnone
        · obtain rfl := some.inj (hc₁.symm.trans hc₂)
          rw [hstores addr, if_pos haddr] at hd
          exact some.inj hd
      · rcases hs.cache with ⟨hc, -⟩ | ⟨cache, cache₂, hc, hc₂, hstores⟩
        · rw [hc] at hc₁
          exact h.entries_of_sent hs hc₁ hd haddr fun x hx => (hlive' x hx).1
        · obtain rfl := some.inj (hc₁.symm.trans hc₂)
          rw [hstores addr, if_neg haddr] at hd
          split at hd
          · cases hd
          · exact h.entries_of_sent hs hc hd haddr fun x hx => (hlive' x hx).1

end Coherent

/-! ## Runs -/

/-- What happens between `ram_save_setup` and `ram_save_complete` : `ram_save_iterate` begins with a
look at the version of the block list, and calls `ram_save_block` a number of times. `newVersion`
is a change of the list that leaves the blocks of the migration as they are, such as a block that is
added and freed again. -/
inductive IterateOp (α : Type) where
  | guestWrite (page : ℕ) (data : α)
  | sync
  | newVersion
  | iterate
  | saveBlock (env : SaveEnv)

/-- A transport without a `save_page` hook. -/
def SaveEnv.NoHook (env : SaveEnv) : Prop := ∀ x, env.control x = .notSupp

def IterateOp.NoHook : IterateOp α → Prop
  | .saveBlock env => env.NoHook
  | _ => True

/-- Without a hook, and with no `reset_ram_globals` while the cache holds a page. -/
def IterateOp.KeepsCache (c : XbzrleCodec α) (st : RamState α) (op : IterateOp α) : Prop :=
  op.NoHook ∧ (op = .iterate → st.version ≠ st.lastVersion → ∀ x, cachedPage c st x = none)

section Codec

variable [DecidableEq α] (c : XbzrleCodec α)

def iterateStep : IterateOp α → RamState α → Option (RamState α)
  | .guestWrite page data, st => some (guestWrite st page data)
  | .sync, st => some (migrationBitmapSync st)
  | .newVersion, st => some { st with version := (st.version + 1) % 2 ^ 32 }
  | .iterate, st => some (ramSaveIterateBegin st)
  | .saveBlock env, st => (ramSaveBlock c false env st).map Prod.fst

/-- A call in the loop of `ram_save_complete`. -/
def completeStep (env : SaveEnv) (st : RamState α) : Option (RamState α) :=
  (ramSaveBlock c true env st).map Prod.fst

/-- The entries of the cache belong to pages, and those of the pages in `live` are the
destination's pages. -/
def CacheAgrees (st : RamState α) (d : RamDest α) (live : ℕ → Prop) : Prop :=
  ∀ cache, st.cache = some cache → ∀ addr data, cache.cached addr = some data →
    ∃ b ∈ st.ramList.blocks, ∃ o < b.length, addr = (b.offset + o) * c.pageSize ∧
      (live (b.offset + o) → d.mem b.idstr o = data)

/-- The next call's delta was encoded over the page that the destination has, and decodes over it
to the guest's page. -/
def DeltaFits (lastStage : Bool) (st : RamState α) (d : RamDest α) : Prop :=
  ∀ env : SaveEnv, env.NoHook → ∀ st' n, ramSaveBlock c lastStage env st = some (st', n) →
    ∀ r bytes, st'.stream = st.stream ++ [r] → r.body = .xbzrle bytes →
      ∃ b ∈ st.ramList.blocks, ∃ o < b.length,
        hostBlock st.ramList.names d r = some b.idstr ∧ r.offset = o ∧
        cachedPage c st (b.offset + o) = some (d.mem b.idstr o) ∧
        c.encode (d.mem b.idstr o) (st.mem (b.offset + o)) = .delta bytes ∧
        c.decode (d.mem b.idstr o) bytes = some (st.mem (b.offset + o))

variable {c} {d₀ d : RamDest α} {live : ℕ → Prop} {st st' : RamState α}

theorem Coherent.deltaFits (h : Coherent c d₀ live st d) (lastStage : Bool)
    (hlive : ∀ x, st.migrationBitmap x = true → live x) : DeltaFits c lastStage st d := by
  intro env _ st' n hcall r bytes hstream hr
  rcases (callEffect_ramSaveBlock h.bulk hcall).sent with ⟨-, hq, -⟩ | ⟨b, o, r', hs⟩
  · rw [hq] at hstream
    simp at hstream
  · obtain rfl : r' = r := by
      have heq := hs.stream.symm.trans hstream
      simpa using heq
    obtain ⟨hcached, henc⟩ := h.delta_over_destination hs hlive hr
    exact ⟨b, hs.mem_blocks, o, hs.lt_length, h.hostBlock_eq hs, hs.record.offset_eq, hcached, henc,
      c.decode_delta henc⟩

/-- After `ram_save_setup` nothing is cached and nothing was sent. -/
theorem coherent_ramSaveSetup {alloc cacheSize st₀}
    (hidle : st₀.cache = none) (h : ramSaveSetup c alloc cacheSize st₀ = some st)
    (d₀ : RamDest α) : Coherent c d₀ (fun _ => True) st d₀ := by
  obtain ⟨hinv, -⟩ := saveInv_ramSaveSetup h
  obtain ⟨cache, hcache, h⟩ := bind_eq_some_iff.mp h
  cases h
  obtain ⟨dirty, bits, n, heq⟩ := (synced_migrationBitmapSync (resetRamGlobals { st₀ with
    migrationBitmap := fun x => decide (x < st₀.ramList.lastRamOffset)
    migrationDirtyPages := st₀.ramList.lastRamOffset
    cache := cache
    stream := [] })).frame
  rw [heq] at hinv ⊢
  have hempty : ∀ cache', cache = some cache' → ∀ addr, cache'.cached addr = none := by
    intro cache' hc addr
    cases hx : st₀.useXbzrle with
    | true =>
      rw [hx, hc] at hcache
      obtain ⟨cache'', hinit, heq'⟩ := map_eq_some_iff.mp hcache
      cases heq'
      exact cached_cacheInit hinit addr
    | false =>
      rw [hx, hidle, hc] at hcache
      cases hcache
  refine ⟨rfl, fun _ _ hs => ?_, fun hx => ?_, fun hb hx => (hinv.bulk hb).1 hx,
    fun cache' hc addr data hd => ?_⟩
  · cases (show none = some _ from hs)
  · have hx : st₀.useXbzrle = false := hx
    rw [hx, hidle] at hcache
    exact (some.inj hcache).symm
  · rw [hempty cache' hc addr] at hd
    cases hd

/-- The invariant of the iterations. -/
def Iterating (c : XbzrleCodec α) (d₀ : RamDest α) (st : RamState α) : Prop :=
  ∃ d, Coherent c d₀ (fun _ => True) st d

/-- The invariant of the last stage. -/
def Completing (c : XbzrleCodec α) (d₀ : RamDest α) (st : RamState α) : Prop :=
  ∃ d, Coherent c d₀ (fun x => st.migrationBitmap x = true) st d

/-- `reset_ram_globals` with nothing in the cache. -/
theorem Coherent.resetRamGlobals (h : Coherent c d₀ live st d)
    (hempty : ∀ x, cachedPage c st x = none) : Coherent c d₀ live (resetRamGlobals st) d where
  load := h.load
  current _ _ hs := nomatch hs
  off := h.off
  bulk _ _ := hempty
  entries := h.entries

/-- One step of an iteration. -/
theorem Coherent.iterateStep (h : Coherent c d₀ (fun _ => True) st d) (op : IterateOp α)
    (hok : op.KeepsCache c st) (hstep : iterateStep c op st = some st') : Iterating c d₀ st' := by
  cases op with
  | guestWrite page data | newVersion =>
    cases hstep
    exact ⟨d, h.of_eq rfl rfl rfl rfl rfl rfl⟩
  | sync =>
    cases hstep
    obtain ⟨dirty, bits, n, heq⟩ := (synced_migrationBitmapSync st).frame
    rw [heq]
    exact ⟨d, h.of_eq rfl rfl rfl rfl rfl rfl⟩
  | iterate =>
    cases hstep
    unfold ramSaveIterateBegin
    split
    · rename_i hv
      exact ⟨d, h.resetRamGlobals (hok.2 rfl hv)⟩
    · exact ⟨d, h⟩
  | saveBlock env =>
    obtain ⟨⟨st₁, n⟩, hcall, rfl⟩ := map_eq_some_iff.mp hstep
    exact h.of_effect (callEffect_ramSaveBlock h.bulk hcall) hok.1 (fun _ _ => trivial)
      fun _ _ => ⟨trivial, fun hl => nomatch hl⟩

/-- One call of the last stage. -/
theorem Coherent.completeStep {env}
    (h : Coherent c d₀ (fun x => st.migrationBitmap x = true) st d) (hok : env.NoHook)
    (hstep : completeStep c env st = some st') : Completing c d₀ st' := by
  obtain ⟨⟨st₁, n⟩, hcall, rfl⟩ := map_eq_some_iff.mp hstep
  have heff := callEffect_ramSaveBlock h.bulk hcall
  exact h.of_effect heff hok (fun _ hx => hx) fun x hx => ⟨heff.bits x hx, fun _ => hx⟩

end Codec

/-- One block of one page. -/
def onePage : RAMList where
  blocks := [⟨1, "ram", 0, 1, by decide⟩]
  ptr_nodup := by decide
  idstr_nodup := by decide
  disjoint := by simp

/-- A machine with one page of RAM that uses XBZRLE. -/
def onePageMachine : RamState armRamPage.Data :=
  { twoPageMachine with ramList := onePage, useXbzrle := true }

/-- A page of ones but for its first byte. -/
def changedPage : armRamPage.Data :=
  ⟨2 :: replicate (armRamPage.size - 1) 1, by
    rw [length_cons, length_replicate]
    exact Nat.sub_add_cancel (Nat.two_pow_pos 10)⟩

/-- The bulk stage, begun again with a new version of the list, then a write whose page goes to the
cache, and one more write. -/
def cachedPageOps : List (IterateOp armRamPage.Data) :=
  [.newVersion, .iterate, .saveBlock plainEnv, .saveBlock plainEnv, .guestWrite 0 onesPage, .sync,
    .saveBlock plainEnv, .guestWrite 0 changedPage]

/-- A destination with nothing in it. -/
def emptyDest : RamDest armRamPage.Data := ⟨none, fun _ _ => armRamPage.codec.zero⟩

/-- Whether the entry of the cache for the page is the destination's page. -/
def observeEntry (st : RamState armRamPage.Data) : Option Bool := do
  let d ← loadStream armRamPage.codec st.ramList.names emptyDest st.stream
  let data ← cachedPage armRamPage.codec st 0
  some (decide (d.mem "ram" 0 = data))

/-- The list of blocks gets a new version, and the write is sent from the bulk stage. -/
def resetOps : List (IterateOp armRamPage.Data) :=
  cachedPageOps ++ [.newVersion, .iterate, .sync, .saveBlock plainEnv]

theorem observe_staleEntry :
    ((ramSaveSetup armRamPage.codec true 4096 onePageMachine).bind fun st =>
      (cachedPageOps.foldlM (fun st op => iterateStep armRamPage.codec op st) st).bind fun st₁ =>
        (completeStep armRamPage.codec plainEnv (migrationBitmapSync st₁)).bind observeEntry) =
      some false := by
  decide +kernel

theorem observe_resetEntry :
    ((ramSaveSetup armRamPage.codec true 4096 onePageMachine).bind fun st =>
      (resetOps.foldlM (fun st op => iterateStep armRamPage.codec op st) st).bind observeEntry) =
      some false := by
  decide +kernel

theorem noHook_of_mem_resetOps {op} (h : op ∈ resetOps) : op.NoHook := by
  unfold resetOps at h
  fin_cases h <;> first | trivial | exact fun _ => rfl

theorem reach_cachedPageOps {st st₁}
    (hst : ramSaveSetup armRamPage.codec true 4096 onePageMachine = some st)
    (h : cachedPageOps.foldlM (fun st op => iterateStep armRamPage.codec op st) st = some st₁) :
    Reach (iterateStep armRamPage.codec) (IterateOp.KeepsCache armRamPage.codec) st st₁ := by
  have hobs : ((ramSaveSetup armRamPage.codec true 4096 onePageMachine).map fun st =>
      (st.ramBulkStage, st.useXbzrle)) = some (true, true) := by decide +kernel
  rw [hst] at hobs
  obtain ⟨hbulk, hx⟩ := Prod.mk.inj (some.inj hobs)
  have hempty := (coherent_ramSaveSetup rfl hst emptyDest).bulk hbulk hx
  have hnew : Reach (iterateStep armRamPage.codec) (IterateOp.KeepsCache armRamPage.codec) st
      { st with version := (st.version + 1) % 2 ^ 32 } :=
    Reach.refl.tail (i := .newVersion) ⟨trivial, nofun⟩ rfl
  have hreset := hnew.tail (i := IterateOp.iterate) ⟨trivial, fun _ _ x => hempty x⟩ rfl
  refine Reach.foldlM (cachedPageOps.drop 2) (fun op hop st => ?_) hreset h
  refine ⟨noHook_of_mem_resetOps (mem_append_left _ (mem_of_mem_drop hop)), ?_⟩
  fin_cases hop <;> exact nofun

theorem of_observeEntry {st} (h : observeEntry st = some false) :
    ∃ d data, loadStream armRamPage.codec st.ramList.names emptyDest st.stream = some d ∧
      cachedPage armRamPage.codec st 0 = some data ∧ d.mem "ram" 0 ≠ data := by
  obtain ⟨d, hload, h⟩ := bind_eq_some_iff.mp h
  obtain ⟨data, hdata, h⟩ := bind_eq_some_iff.mp h
  exact ⟨d, data, hload, hdata, of_decide_eq_false (some.inj h)⟩

end QemuArm
