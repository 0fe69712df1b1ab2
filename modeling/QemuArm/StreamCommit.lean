import QemuArm.BlockChain

/-!
# Streaming and committing

`stream_run` copies into the active image what the images between it and the base hold, and
then drops those. `commit_run` copies into the base what the images from `top` down to it
hold, and then drops those. Nothing else writes, no request fails, and neither job is
cancelled.

The active image reads as before if the sectors that a job may leave alone, and that an image to
be dropped hides by its end, read as zeroes from the base (`StreamExact`, `CommitExact`). A job may
leave alone more than it should because a run that is not allocated can go on beyond the end of an
image (`PassesOver`).
-/

namespace QemuArm

open Nat List

variable {α : Type} [Zero α]

/-- Copy-on-read of a run, rounded to clusters. What is allocated already is copied onto
itself. -/
def copyOnRead (bs : BlockImage α) (below : List (BlockImage α)) (s n : ℕ) : BlockImage α :=
  let r := bdrvIsAllocated bs below.head? s n
  if r.1 = true ∧ r.2 = n then bs
  else
    let c := bs.drv.cluster
    let first := if c = 0 then s else s / c * c
    let count := if c = 0 then n else (s - first + n + (c - 1)) / c * c
    { bs with
      status := fun t =>
        if first ≤ t ∧ t < first + count then .data (view (bs :: below) t) else bs.status t }

/-- `STREAM_BUFFER_SIZE` and `COMMIT_BUFFER_SIZE`, in sectors. -/
def jobBuffer : ℕ := 1024

/-! ## The jobs -/

/-- The loop of `stream_run`, with at most `fuel` rounds. -/
def streamLoop (inter rest : List (BlockImage α)) : ℕ → ℕ → BlockImage α → Option (ℕ × BlockImage α)
  | 0, s, bs => if s < bs.len then none else some (s, bs)
  | fuel + 1, s, bs =>
    if s < bs.len then
      let r := bdrvIsAllocated bs (inter ++ rest).head? s jobBuffer
      if r.1 then streamLoop inter rest fuel (s + r.2) bs
      else
        let r := bdrvIsAllocatedAbove inter rest s r.2
        if r.1 then streamLoop inter rest fuel (s + r.2) (copyOnRead bs (inter ++ rest) s r.2)
        else
          -- the end of the backing file ends the job
          streamLoop inter rest fuel (s + if r.2 = 0 then bs.len - s else r.2) bs
    else some (s, bs)

/-- `stream_run` on `bs`, with the images `inter` above the base and `rest` from the base
on. The result is the new chain. -/
def streamRun (bs : BlockImage α) (inter rest : List (BlockImage α)) :
    Option (List (BlockImage α)) :=
  if (inter ++ rest).isEmpty then some [bs]
  else
    (streamLoop inter rest bs.len 0 bs).map fun r =>
      if r.1 = bs.len then r.2 :: rest else r.2 :: inter ++ rest

/-- `bdrv_truncate` to a greater length. -/
def bdrvGrow (base : BlockImage α) (len : ℕ) : BlockImage α :=
  if base.len < len then
    { base with
      len := len
      status := fun t => if t < base.len then base.status t else .unallocated }
  else base

/-- `bdrv_write`. -/
def bdrvWrite (base : BlockImage α) (s n : ℕ) (data : ℕ → α) : BlockImage α :=
  { base with
    status := fun t => if s ≤ t ∧ t < s + n then .data (data t) else base.status t }

/-- The loop of `commit_run`. It is `some none` if `bdrv_read` finds that a run goes beyond the end
of `top`. -/
def commitLoop (top : BlockImage α) (inter rest : List (BlockImage α)) :
    ℕ → ℕ → BlockImage α → Option (Option (ℕ × BlockImage α))
  | 0, s, base => if s < top.len then none else some (some (s, base))
  | fuel + 1, s, base =>
    if s < top.len then
      let r := bdrvIsAllocatedAbove (top :: inter) (base :: rest) s jobBuffer
      if r.1 then
        if top.len < s + r.2 then some none
        else
          commitLoop top inter rest fuel (s + r.2)
            (bdrvWrite base s r.2 (view (top :: inter ++ base :: rest)))
      else commitLoop top inter rest fuel (s + r.2) base
    else some (some (s, base))

/-- `commit_run` of `top` and the images `inter` below it into `base`. `overlays` are the images
above `top`. The result is the new chain. -/
def commitRun (overlays : List (BlockImage α)) (top : BlockImage α) (inter : List (BlockImage α))
    (base : BlockImage α) (rest : List (BlockImage α)) : Option (Option (List (BlockImage α))) :=
  (commitLoop top inter rest top.len 0 (bdrvGrow base top.len)).map fun r => r.map fun r =>
    if r.1 = top.len then overlays ++ r.2 :: rest else overlays ++ top :: inter ++ r.2 :: rest

/-! ## What the jobs may leave alone -/

variable {t : ℕ}

/-- From `s` to `t` none of the images has anything, and all of them reach `s`. A run from `s` on
can then be reported up to `t`, even if an image behind the first one ends before. -/
structure PassesOver (is rest : List (BlockImage α)) (s t : ℕ) : Prop where
  le : s ≤ t
  lt : t < s + jobBuffer
  first : ∀ i ∈ is.head?, t < i.len
  start : ∀ i ∈ is ++ rest.take 1, s < i.len
  unallocated : ∀ i ∈ is, ∀ u, s ≤ u → u ≤ t → u < i.len → (i.status u).kind = .unallocated

/-- When a streamed image reads as before. -/
structure StreamExact (bs : BlockImage α) (inter rest : List (BlockImage α)) : Prop where
  /-- beyond the end of the next image, which counts as allocated -/
  ended : ∀ t < bs.len, (bs.status t).kind = .unallocated → (∃ i ∈ inter.head?, i.len ≤ t) →
    view rest t = 0
  passed : ∀ s t, PassesOver (bs :: inter) rest s t → (∃ i ∈ inter, i.len ≤ t) → view rest t = 0

/-- When the images above the committed ones read as before. -/
structure CommitExact (overlays : List (BlockImage α)) (top : BlockImage α)
    (inter : List (BlockImage α)) (base : BlockImage α) (rest : List (BlockImage α)) : Prop where
  beyond : ∀ t, Falls overlays t → top.len ≤ t → view (base :: rest) t = 0
  /-- the base grows over its own backing file -/
  grown : ∀ t, Falls overlays t → Falls (top :: inter) t → base.len ≤ t → view rest t = 0
  passed : ∀ s t, Falls overlays t → PassesOver (top :: inter) [] s t → (∃ i ∈ inter, i.len ≤ t) →
    view (base :: rest) t = 0 ∧ (base.len ≤ t → view rest t = 0)

section Passes

variable {is rest : List (BlockImage α)} {s nb : ℕ}

omit [Zero α] in
theorem exists_of_hides : ∀ {is : List (BlockImage α)}, Hides is t → ∃ i ∈ is, i.len ≤ t
  | i :: is, h => by
    rcases h with h | ⟨-, h⟩
    · exact ⟨i, mem_cons_self, h⟩
    · obtain ⟨j, hj, hle⟩ := exists_of_hides h
      exact ⟨j, mem_cons_of_mem i hj, hle⟩

omit [Zero α] in
theorem PassesOver.hides (h : PassesOver is rest s t) (hend : ∃ i ∈ is, i.len ≤ t) :
    Hides is t := by
  have hun : ∀ i ∈ is, t < i.len → (i.status t).kind = .unallocated := fun i hi =>
    h.unallocated i hi t h.le le_rfl
  clear h
  induction is with
  | nil => obtain ⟨i, hi, -⟩ := hend; cases hi
  | cons i is ih =>
    by_cases hlt : t < i.len
    · obtain ⟨j, hj, hle⟩ := hend
      rcases mem_cons.1 hj with rfl | hj
      · exact .inl hle
      · exact .inr ⟨hun i mem_cons_self hlt,
          ih ⟨j, hj, hle⟩ fun k hk => hun k (mem_cons_of_mem i hk)⟩
    · exact .inl (not_lt.1 hlt)

/-- A run that is not allocated in any of the images. -/
theorem allocatedAboveLoop_passes (hrest : rest ≠ []) : ∀ {is : List (BlockImage α)} {first : Bool}
    {n m : ℕ}, allocatedAboveLoop rest s nb first n is = (false, m) →
    (∀ i ∈ (is ++ rest).head?, s < i.len) →
    (∀ i ∈ is ++ rest.take 1, s < i.len) ∧ ∀ t, s ≤ t → t < s + m →
      (first = true → ∀ i ∈ is.head?, t < i.len) ∧
      ∀ i ∈ is, ∀ u, s ≤ u → u ≤ t → u < i.len → (i.status u).kind = .unallocated
  | [], _, _, _, _, hhead => by
    cases rest with
    | nil => exact absurd rfl hrest
    | cons b rest => simpa using hhead
  | i :: is, first, n, m, h, hhead => by
    have hs : s < i.len := hhead i rfl
    rw [allocatedAboveLoop] at h
    obtain ⟨r, hr⟩ := @exists_eq _ (bdrvIsAllocated i (is ++ rest).head? s nb)
    have hle := @bdrvIsAllocated_le _ i (is ++ rest).head? s nb
    rw [← hr] at h hle
    split at h
    · exact absurd (Prod.mk.inj h).1 (by simp)
    rename_i halloc
    rw [Bool.not_eq_true] at halloc
    obtain ⟨b, hback⟩ : ∃ b, (is ++ rest).head? = some b := by
      cases is with
      | nil =>
        obtain ⟨b, rest', rfl⟩ := exists_cons_of_ne_nil hrest
        exact ⟨b, rfl⟩
      | cons j is => exact ⟨j, rfl⟩
    rw [hr, hback] at halloc
    obtain ⟨hun, hb⟩ := bdrvIsAllocated_false hs halloc
    have hm := (allocatedAboveLoop_false h).1
    obtain ⟨hstart, hrun⟩ := allocatedAboveLoop_passes hrest h fun j hj => by
      obtain rfl := Option.some.inj (hback.symm.trans hj)
      exact hb
    refine ⟨fun j hj => ?_, fun t hst ht => ⟨fun hfirst j hj => ?_, fun j hj u hsu hut hu => ?_⟩⟩
    · rcases mem_cons.1 hj with rfl | hj
      · exact hs
      · exact hstart j hj
    · obtain rfl := Option.some.inj hj
      simp only [hfirst, true_or, and_true] at hm
      split at hm <;> omega
    · rcases mem_cons.1 hj with rfl | hj
      · have hur : u < s + r.2 := by split at hm <;> omega
        exact (bdrvIsAllocated_kind hsu (hr ▸ hur)).trans hun
      · exact (hrun t hst ht).2 j hj u hsu hut hu

end Passes

/-! ## Streaming -/

section Stream

variable {bs cur : BlockImage α} {inter rest below : List (BlockImage α)} {s n : ℕ}

theorem le_alignUp {x c : ℕ} (hc : c ≠ 0) : x ≤ (x + (c - 1)) / c * c := by
  have hmod := mod_add_div (x + (c - 1)) c
  have hlt := mod_lt (x + (c - 1)) (pos_of_ne_zero hc)
  rw [mul_comm] at hmod
  omega

/-- Copy-on-read leaves every sector as it was or as it reads, and all of the run allocated. -/
theorem copyOnRead_spec (hfalse : (bdrvIsAllocated cur below.head? s n).1 = false) :
    (copyOnRead cur below s n).len = cur.len ∧
    (∀ t, (copyOnRead cur below s n).status t = cur.status t ∨
      (copyOnRead cur below s n).status t = .data (view (cur :: below) t)) ∧
    ∀ t, s ≤ t → t < s + n →
      (copyOnRead cur below s n).status t = .data (view (cur :: below) t) := by
  rw [copyOnRead]
  simp only [hfalse, Bool.false_eq_true, false_and, if_false]
  refine ⟨trivial, fun t => ?_, fun t hst htn => if_pos ?_⟩
  · exact (ite_eq_or_eq _ _ _).symm
  · split_ifs with hc
    · exact ⟨hst, htn⟩
    · have hfirst : s / cur.drv.cluster * cur.drv.cluster ≤ s := div_mul_le_self _ _
      have hcount := @le_alignUp (s - s / cur.drv.cluster * cur.drv.cluster + n) _ hc
      constructor <;> omega

/-- After the sectors below `s`. -/
structure StreamInv (bs : BlockImage α) (inter rest : List (BlockImage α)) (s : ℕ)
    (cur : BlockImage α) : Prop where
  len : cur.len = bs.len
  le : s ≤ bs.len
  status : ∀ t, cur.status t = bs.status t ∨ cur.status t = .data (view (bs :: inter ++ rest) t)
  skipped : StreamExact bs inter rest → ∀ t < s, (cur.status t).kind = .unallocated →
    view rest t = view (inter ++ rest) t

section

variable (h : StreamInv bs inter rest s cur)
include h

/-- The active image still reads as before. -/
theorem StreamInv.view_eq (t : ℕ) :
    view (cur :: (inter ++ rest)) t = view (bs :: (inter ++ rest)) t := by
  rw [view, h.len]
  split_ifs with hlt
  · rcases h.status t with hst | hst
    · rw [hst, view, if_pos hlt]
    · rw [hst]
      rfl
  · rw [view, if_neg hlt]

theorem StreamInv.unallocated (hun : (cur.status t).kind = .unallocated) :
    (bs.status t).kind = .unallocated := by
  rcases h.status t with hst | hst
  · exact hst ▸ hun
  · rw [hst] at hun
    cases hun

/-- The next sectors are allocated, or nothing to be dropped shows there. -/
theorem StreamInv.skip (hle : s + n ≤ bs.len) (hskip : ∀ t, s ≤ t → t < s + n →
      (cur.status t).kind = .unallocated → Skippable inter rest t ∧
        (StreamExact bs inter rest → rest ≠ [] → Hides inter t → view rest t = 0)) :
    StreamInv bs inter rest (s + n) cur := by
  refine ⟨h.len, hle, h.status, fun hexact t ht hun => ?_⟩
  rcases lt_or_ge t s with hlt | hge
  · exact h.skipped hexact t hlt hun
  · obtain ⟨hskip, hzero⟩ := hskip t hge ht hun
    rcases hskip with hf | hh | ⟨rfl, hz⟩
    · exact (view_append_falls hf).symm
    · rw [view_append_hides hh]
      cases rest with
      | nil => rfl
      | cons b rest => exact hzero hexact nofun hh
    · rw [append_nil, hz]
      rfl

/-- A run that is not allocated in the active image, nor in those to be dropped. -/
theorem StreamInv.passesOver {b m} (hrest : rest ≠ []) (hback : (inter ++ rest).head? = some b)
    (hlt : s < cur.len) (halloc : (bdrvIsAllocated cur (some b) s jobBuffer).1 = false)
    (hq : bdrvIsAllocatedAbove inter rest s (bdrvIsAllocated cur (some b) s jobBuffer).2 =
      (false, m))
    (hst : s ≤ t) (htn : t < s + m) : PassesOver (bs :: inter) rest s t := by
  obtain ⟨hun, hb⟩ := bdrvIsAllocated_false hlt halloc
  obtain ⟨hstart, hrun⟩ := allocatedAboveLoop_passes hrest hq fun j hj => by
    obtain rfl := Option.some.inj (hback.symm.trans hj)
    exact hb
  have hm := (allocatedAboveLoop_false hq).1
  have hbuf := @bdrvIsAllocated_le _ cur (some b) s jobBuffer
  have hlen := h.len
  refine ⟨hst, by omega, fun j hj => ?_, fun j hj => ?_, fun j hj u hsu hut hu => ?_⟩
  · obtain rfl := Option.some.inj hj
    omega
  · rcases mem_cons.1 hj with rfl | hj
    · omega
    · exact hstart j hj
  · rcases mem_cons.1 hj with rfl | hj
    · have hu : u < s + (bdrvIsAllocated cur (some b) s jobBuffer).2 := by omega
      exact h.unallocated ((bdrvIsAllocated_kind hsu hu).trans hun)
    · exact (hrun t hst htn).2 j hj u hsu hut hu

theorem StreamInv.copy (hle : s + n ≤ bs.len) (hfalse : (bdrvIsAllocated cur (inter ++ rest).head? s
      n).1 = false) : StreamInv bs inter rest (s + n) (copyOnRead cur (inter ++ rest) s n) := by
  obtain ⟨hlen, hstatus, hrun⟩ := copyOnRead_spec hfalse
  refine ⟨hlen.trans h.len, hle, fun t => ?_, fun hexact t ht hun => ?_⟩
  · rcases hstatus t with hst | hst
    · rw [hst]
      exact h.status t
    · rw [hst, h.view_eq]
      exact .inr rfl
  · rcases lt_or_ge t s with hlt | hge
    · rcases hstatus t with hst | hst
      · exact h.skipped hexact t hlt (hst ▸ hun)
      · rw [hst] at hun
        exact absurd hun (by simp)
    · rw [hrun t hge ht] at hun
      exact absurd hun (by simp)

end

/-- Beyond the end of the next image nothing to be dropped shows. -/
theorem skippable_of_end {b} (hback : (inter ++ rest).head? = some b) (hend : b.len ≤ t)
    (ht : t < bs.len) (hun : (bs.status t).kind = .unallocated) : Skippable inter rest t ∧
      (StreamExact bs inter rest → rest ≠ [] → Hides inter t → view rest t = 0) := by
  cases inter with
  | nil => exact ⟨.inl trivial, fun _ _ hh => hh.elim⟩
  | cons i is =>
    obtain rfl : i = b := by simpa using hback
    exact ⟨.inr (.inl (.inl hend)), fun hexact _ _ => hexact.ended t ht hun ⟨i, rfl, hend⟩⟩

/-- The loop of the stream job ends with its invariant. -/
theorem streamLoop_spec {b} (hback : (inter ++ rest).head? = some b) :
    ∀ (fuel s : ℕ) {cur : BlockImage α}, bs.len ≤ s + fuel → StreamInv bs inter rest s cur →
      ∃ cur', streamLoop inter rest fuel s cur = some (bs.len, cur') ∧
        StreamInv bs inter rest bs.len cur'
  | 0, s, cur, hfuel, h => by
    have hs : s = bs.len := by have := h.le; omega
    refine ⟨cur, ?_, hs ▸ h⟩
    rw [streamLoop, if_neg (by rw [h.len]; omega), hs]
  | fuel + 1, s, cur, hfuel, h => by
    rw [streamLoop]
    by_cases hlt : s < cur.len
    · rw [if_pos hlt]
      rw [hback]
      obtain ⟨r, hr⟩ := @exists_eq _ (bdrvIsAllocated cur (some b) s jobBuffer)
      have hle : r.2 ≤ cur.len - s := by
        have := @bdrvIsAllocated_le _ cur (some b) s jobBuffer
        rw [← hr] at this
        omega
      have hpos : 0 < r.2 := hr ▸ bdrvIsAllocated_pos (by decide) hlt
      rw [← hr]
      rw [h.len] at hle
      by_cases halloc : r.1 = true
      · -- allocated, or flagged as zeroes because the next image has ended
        rw [if_pos halloc]
        refine streamLoop_spec hback fuel _ (by omega) (h.skip (by omega) fun t hst htn hun => ?_)
        have hkind := bdrvIsAllocated_kind hst (hr ▸ htn)
        rcases (bdrvIsAllocated_some_iff.1 (hr ▸ halloc)).2 with hne | hend
        · exact absurd (hkind.symm.trans hun) hne
        · exact skippable_of_end hback (hend.trans hst) (by omega) (h.unallocated hun)
      · rw [if_neg halloc]
        rw [Bool.not_eq_true] at halloc
        obtain ⟨⟨copy, m⟩, hq⟩ : ∃ q, q = bdrvIsAllocatedAbove inter rest s r.2 := ⟨_, rfl⟩
        rw [← hq]
        cases copy with
        | true =>
          obtain ⟨hmpos, hmle⟩ := allocatedAboveLoop_true hpos hq.symm
          have hfalse : (bdrvIsAllocated cur (inter ++ rest).head? s m).1 = false := by
            rw [hback, bdrvIsAllocated_fst m jobBuffer, ← hr]
            exact halloc
          exact streamLoop_spec hback fuel _ (by dsimp only; omega)
            (h.copy (by dsimp only; omega) hfalse)
        | false =>
          rw [if_neg (by simp)]
          obtain ⟨hmle, hskip⟩ := allocatedAboveLoop_false hq.symm
          by_cases hm : m = 0
          · subst hm
            obtain ⟨i, is', hcons, hend⟩ := bdrvIsAllocatedAbove_zero hpos hq.symm
            rw [if_pos rfl]
            refine streamLoop_spec hback fuel _ (by rw [h.len]; omega)
              (h.skip (by rw [h.len]; omega) fun t hst htn hun => ?_)
            have hib : i = b := by simpa [hcons] using hback
            refine skippable_of_end hback ((hib ▸ hend).trans hst) ?_ (h.unallocated hun)
            have := h.len
            omega
          · rw [if_neg hm]
            refine streamLoop_spec hback fuel _ (by dsimp only; omega)
              (h.skip (by dsimp only; omega) fun t hst htn hun => ⟨hskip t hst htn, ?_⟩)
            exact fun hexact hrest hh => hexact.passed s t
              (h.passesOver hrest hback hlt (hr ▸ halloc) (hr ▸ hq.symm) hst htn)
              (exists_of_hides hh)
    · have hs : s = bs.len := by have := h.le; have := h.len; omega
      refine ⟨cur, ?_, hs ▸ h⟩
      rw [if_neg hlt, hs]

/-- The job ends, and only the active image has changed. -/
theorem streamRun_eq {b} (bs : BlockImage α) (hback : (inter ++ rest).head? = some b) :
    ∃ cur, streamLoop inter rest bs.len 0 bs = some (bs.len, cur) ∧
      streamRun bs inter rest = some (cur :: rest) ∧ StreamInv bs inter rest bs.len cur := by
  have hinit : StreamInv bs inter rest 0 bs :=
    ⟨rfl, zero_le _, fun _ => Or.inl rfl, fun _ t ht => absurd ht (not_lt_zero t)⟩
  obtain ⟨cur, hcur, hinv⟩ := streamLoop_spec hback bs.len 0 (le_add_left _ _) hinit
  have hne : (inter ++ rest).isEmpty = false := by
    cases hlist : inter ++ rest with
    | nil => simp [hlist] at hback
    | cons i is => rfl
  refine ⟨cur, hcur, ?_, hinv⟩
  rw [streamRun, hne, if_neg (by simp), hcur, Option.map_some, if_pos rfl]

theorem stream_view (bs : BlockImage α) (inter rest : List (BlockImage α)) :
    ∃ chain, streamRun bs inter rest = some chain ∧ (StreamExact bs inter rest →
      ∀ t < bs.len, view chain t = view (bs :: inter ++ rest) t) := by
  cases hback : (inter ++ rest).head? with
  | none =>
    obtain ⟨rfl, rfl⟩ := append_eq_nil_iff.mp (head?_eq_none_iff.mp hback)
    exact ⟨[bs], rfl, fun _ _ _ => rfl⟩
  | some b =>
    obtain ⟨cur, -, hrun, hinv⟩ := streamRun_eq bs hback
    refine ⟨cur :: rest, hrun, fun hexact t ht => ?_⟩
    have hlt : t < cur.len := hinv.len ▸ ht
    refine Eq.trans ?_ (hinv.view_eq t)
    by_cases hun : (cur.status t).kind = .unallocated
    · rw [view_cons_unallocated hlt hun, view_cons_unallocated hlt hun]
      exact hinv.skipped hexact t ht hun
    · rw [view, view]
      cases hst : cur.status t with
      | data d => rfl
      | zero => rfl
      | unallocated => exact absurd (by rw [hst]; rfl) hun

end Stream

/-! ## Committing -/

section Commit

variable {top base cur g : BlockImage α} {overlays inter rest : List (BlockImage α)} {s n : ℕ}

/-- After the sectors below `s`, with the base grown to `g` at first. -/
structure CommitInv (top : BlockImage α) (inter : List (BlockImage α)) (g : BlockImage α)
    (rest : List (BlockImage α)) (s : ℕ) (cur : BlockImage α) : Prop where
  len : cur.len = g.len
  grown : top.len ≤ g.len
  le : s ≤ top.len
  status : ∀ t, cur.status t = g.status t ∨
    t < s ∧ cur.status t = .data (view (top :: inter ++ g :: rest) t)
  skipped : ∀ t < s, cur.status t = .data (view (top :: inter ++ g :: rest) t) ∨
    Falls (top :: inter) t ∨ Hides (top :: inter) t ∧ ∃ s, PassesOver (top :: inter) [] s t

section

variable (h : CommitInv top inter g rest s cur)
include h

theorem CommitInv.view_same (hst : cur.status t = g.status t) :
    view (cur :: rest) t = view (g :: rest) t := by
  rw [view, view, h.len, hst]

/-- Where a read falls through the images to be dropped, the base reads as before. -/
theorem CommitInv.view_falls (hf : Falls (top :: inter) t) :
    view (cur :: rest) t = view (g :: rest) t := by
  rcases h.status t with hst | ⟨-, hst⟩
  · exact h.view_same hst
  · rw [view, hst, h.len]
    split_ifs with hlt
    · rw [view_append_falls hf]
    · rw [view, if_neg hlt]

/-- `top` still reads as before. -/
theorem CommitInv.view_eq (t : ℕ) :
    view (top :: inter ++ cur :: rest) t = view (top :: inter ++ g :: rest) t := by
  by_cases hf : Falls (top :: inter) t
  · rw [view_append_falls hf, view_append_falls hf, h.view_falls hf]
  · exact view_append_congr hf

theorem CommitInv.skip (hle : s + n ≤ top.len) (hskip : ∀ t, s ≤ t → t < s + n →
      Falls (top :: inter) t ∨ Hides (top :: inter) t ∧ PassesOver (top :: inter) [] s t) :
    CommitInv top inter g rest (s + n) cur where
  len := h.len
  grown := h.grown
  le := hle
  status t := (h.status t).imp_right fun ⟨hlt, hst⟩ => ⟨Nat.lt_add_right n hlt, hst⟩
  skipped t ht := by
    rcases lt_or_ge t s with hlt | hge
    · exact h.skipped t hlt
    · exact .inr ((hskip t hge ht).imp_right fun ⟨hh, hpass⟩ => ⟨hh, s, hpass⟩)

theorem CommitInv.copy (hle : s + n ≤ top.len) :
    CommitInv top inter g rest (s + n)
      (bdrvWrite cur s n (view (top :: inter ++ cur :: rest))) where
  len := h.len
  grown := h.grown
  le := hle
  status t := by
    dsimp only [bdrvWrite]
    split_ifs with hrun
    · exact .inr ⟨hrun.2, by rw [h.view_eq]⟩
    · exact (h.status t).imp_right fun ⟨hlt, hst⟩ => ⟨Nat.lt_add_right n hlt, hst⟩
  skipped t ht := by
    dsimp only [bdrvWrite]
    split_ifs with hrun
    · exact .inl (by rw [h.view_eq])
    · exact h.skipped t (not_le.1 fun hge => hrun ⟨hge, ht⟩)

end

/-- A run that is not allocated in `top`, nor in the images below it. -/
theorem passesOver_of_above {m} (hs : s < top.len)
    (hq : bdrvIsAllocatedAbove (top :: inter) (cur :: rest) s jobBuffer = (false, m)) (hst : s ≤ t)
    (htn : t < s + m) : PassesOver (top :: inter) [] s t := by
  obtain ⟨hstart, hrun⟩ := allocatedAboveLoop_passes (cons_ne_nil cur rest) hq fun i hi => by
    obtain rfl := Option.some.inj hi
    exact hs
  have hm := (allocatedAboveLoop_false hq).1
  obtain ⟨hfirst, hun⟩ := hrun t hst htn
  refine ⟨hst, by omega, hfirst rfl, fun i hi => hstart i (mem_append_left _ ?_), hun⟩
  simpa using hi

/-- The loop of the commit job ends with its invariant, or with an error. -/
theorem commitLoop_spec : ∀ (fuel s : ℕ) {cur : BlockImage α}, top.len ≤ s + fuel →
    CommitInv top inter g rest s cur → ∃ r, commitLoop top inter rest fuel s cur = some r ∧
      ∀ s' cur', r = some (s', cur') → s' = top.len ∧ CommitInv top inter g rest top.len cur'
  | 0, s, cur, hfuel, h => by
    have hs : s = top.len := by have := h.le; omega
    refine ⟨some (s, cur), by rw [commitLoop, if_neg (by omega)], ?_⟩
    rintro s' cur' ⟨⟩
    exact ⟨hs, hs ▸ h⟩
  | fuel + 1, s, cur, hfuel, h => by
    rw [commitLoop]
    by_cases hlt : s < top.len
    · rw [if_pos hlt]
      obtain ⟨⟨copy, m⟩, hq⟩ :
        ∃ q, q = bdrvIsAllocatedAbove (top :: inter) (cur :: rest) s jobBuffer := ⟨_, rfl⟩
      rw [← hq]
      cases copy with
      | true =>
        obtain ⟨hmpos, -⟩ := allocatedAboveLoop_true (by decide) hq.symm
        rw [if_pos rfl]
        by_cases hend : top.len < s + m
        · exact ⟨none, if_pos hend, by rintro s' cur' ⟨⟩⟩
        · rw [if_neg hend]
          exact commitLoop_spec fuel _ (by dsimp only; omega) (h.copy (not_lt.mp hend))
      | false =>
        obtain ⟨-, hskip⟩ := allocatedAboveLoop_false hq.symm
        have hle := bdrvIsAllocatedAbove_cons_le hq.symm
        have hmpos : 0 < m := by
          rcases Nat.eq_zero_or_pos m with rfl | hpos
          · obtain ⟨i, is, heq, hilen⟩ := bdrvIsAllocatedAbove_zero (by decide) hq.symm
            obtain rfl := (cons.inj heq).1
            omega
          · exact hpos
        refine commitLoop_spec fuel _ (by dsimp only; omega)
          (h.skip (by dsimp only; omega) fun t hst htn => ?_)
        refine (hskip t hst htn).imp_right fun hh => ⟨hh.resolve_right fun h => by simp at h, ?_⟩
        exact passesOver_of_above hlt hq.symm hst htn
    · have hs : s = top.len := by have := h.le; omega
      refine ⟨some (s, cur), if_neg hlt, ?_⟩
      rintro s' cur' ⟨⟩
      exact ⟨hs, hs ▸ h⟩

/-- The base grows over what its own backing file has there. -/
theorem view_bdrvGrow (len : ℕ) : view (bdrvGrow base len :: rest) t =
    if t < base.len then view (base :: rest) t else if t < len then view rest t else 0 := by
  by_cases ht : t < base.len
  · rw [if_pos ht, bdrvGrow]
    split_ifs with hlen
    · rw [view, view, if_pos ht, if_pos (ht.trans hlen)]
      dsimp only
      rw [if_pos ht]
    · rfl
  · rw [if_neg ht, bdrvGrow]
    split_ifs with hlen ht' ht'
    · rw [view]
      dsimp only
      rw [if_pos ht', if_neg ht]
    · rw [view, if_neg ht']
    · omega
    · rw [view, if_neg ht]

omit [Zero α] in
theorem le_bdrvGrow (len : ℕ) : len ≤ (bdrvGrow base len).len := by
  rw [bdrvGrow]
  split_ifs with hlen
  · exact le_rfl
  · exact not_lt.1 hlen

/-- Beyond the end of `top` the base is as it was. -/
theorem CommitInv.view_beyond (h : CommitInv top inter (bdrvGrow base top.len) rest top.len cur)
    (ht : top.len ≤ t) : view (cur :: rest) t = view (base :: rest) t := by
  have hst := (h.status t).resolve_right fun hlt => absurd hlt.1 (not_lt.2 ht)
  rw [h.view_same hst, view_bdrvGrow, if_neg (not_lt.2 ht)]
  split_ifs with hbase
  · rfl
  · rw [view, if_neg hbase]

/-- What the base reads as in the end, against what `top` read as. -/
theorem CommitInv.view_top (h : CommitInv top inter (bdrvGrow base top.len) rest top.len cur)
    (hexact : CommitExact overlays top inter base rest) (hf : Falls overlays t) :
    view (cur :: rest) t = view (top :: inter ++ base :: rest) t := by
  by_cases ht : t < top.len
  · have hlt : t < cur.len := h.len ▸ ht.trans_le h.grown
    have hgrown (hff : Falls (top :: inter) t) :
        view (bdrvGrow base top.len :: rest) t = view (base :: rest) t := by
      rw [view_bdrvGrow, if_pos ht]
      split_ifs with hbase
      · rfl
      · rw [hexact.grown t hf hff (not_lt.1 hbase), view, if_neg hbase]
    have hdata (hst : cur.status t =
        .data (view (top :: inter ++ bdrvGrow base top.len :: rest) t)) :
        view (cur :: rest) t = view (top :: inter ++ base :: rest) t := by
      rw [view, if_pos hlt, hst]
      by_cases hff : Falls (top :: inter) t
      · exact (view_append_falls hff).trans ((hgrown hff).trans (view_append_falls hff).symm)
      · exact view_append_congr hff
    rcases h.status t with hst | ⟨-, hst⟩
    · rcases h.skipped t ht with hst | hff | ⟨hh, s, hpass⟩
      · exact hdata hst
      · rw [h.view_same hst, hgrown hff, view_append_falls hff]
      · obtain ⟨i, hi, hend⟩ := exists_of_hides hh
        have hinter := (mem_cons.1 hi).resolve_left fun heq => absurd ht (heq ▸ not_lt.2 hend)
        obtain ⟨hzero, hrest⟩ := hexact.passed s t hf hpass ⟨i, hinter, hend⟩
        rw [h.view_same hst, view_append_hides hh, view_bdrvGrow, if_pos ht]
        split_ifs with hbase
        · exact hzero
        · exact hrest (not_lt.1 hbase)
    · exact hdata hst
  · rw [h.view_beyond (not_lt.1 ht), hexact.beyond t hf (not_lt.1 ht), cons_append, view,
      if_neg ht]

/-- The job ends, and only the base has changed. -/
theorem commitRun_eq (overlays : List (BlockImage α)) (top : BlockImage α)
    (inter : List (BlockImage α)) (base : BlockImage α) (rest : List (BlockImage α)) :
    ∃ r, commitLoop top inter rest top.len 0 (bdrvGrow base top.len) = some r ∧
      commitRun overlays top inter base rest = some (r.map fun x => overlays ++ x.2 :: rest) ∧
      ∀ x ∈ r, CommitInv top inter (bdrvGrow base top.len) rest top.len x.2 := by
  have hinit : CommitInv top inter (bdrvGrow base top.len) rest 0 (bdrvGrow base top.len) :=
    ⟨rfl, le_bdrvGrow _, zero_le _, fun t => Or.inl rfl, fun t ht => absurd ht (not_lt_zero t)⟩
  obtain ⟨r, hr, hspec⟩ := commitLoop_spec top.len 0 (le_add_left _ _) hinit
  refine ⟨r, hr, ?_, fun x hx => (hspec x.1 x.2 hx).2⟩
  rw [commitRun, hr, Option.map_some]
  cases r with
  | none => rfl
  | some x => rw [Option.map_some, Option.map_some, if_pos (hspec x.1 x.2 rfl).1]

end Commit

end QemuArm
