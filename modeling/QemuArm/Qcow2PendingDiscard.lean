import Mathlib

/-!
# The list of pending discards

`update_refcount_discard` of `block/qcow2-refcount.c` collects the clusters that lost their last
reference, until `qcow2_process_discards` hands them on. A failed assertion is `none`. The list
is taken apart at the entry `d` that the new range went into, so that the second loop goes over
what is before and what is after it (`p == d` skips the entry itself).

As long as nothing is freed twice, the entries have gaps between them and hold what was freed
(`runDiscards_canonical`).
-/

namespace QemuArm

open List

/-- `Qcow2DiscardRegion` -/
structure DiscardRegion where
  offset : ℕ
  bytes : ℕ

namespace DiscardRegion

/-! ## The list -/

/-- The first loop of `update_refcount_discard`, on `uint64_t` -/
def extendFirst (offset length : ℕ) :
    List DiscardRegion → Option (List DiscardRegion × DiscardRegion × List DiscardRegion)
  | [] => some ([], ⟨offset, length⟩, [])
  | d :: ds =>
    let newStart := min offset d.offset
    let newEnd := max ((offset + length) % 2 ^ 64) ((d.offset + d.bytes) % 2 ^ 64)
    let size := (newEnd + 2 ^ 64 - newStart) % 2 ^ 64
    if size ≤ (length + d.bytes) % 2 ^ 64 then
      if (d.bytes + length) % 2 ^ 64 = size then some ([], ⟨newStart, size⟩, ds) else none
    else (extendFirst offset length ds).map fun r => (d :: r.1, r.2)

/-- The second loop over some of the entries : what `d` grows to, and what is not merged -/
def mergeInto (d : DiscardRegion) : List DiscardRegion → Option (DiscardRegion × List DiscardRegion)
  | [] => some (d, [])
  | p :: ps =>
    let dEnd := (d.offset + d.bytes) % 2 ^ 64
    let pEnd := (p.offset + p.bytes) % 2 ^ 64
    if p.offset > dEnd ∨ d.offset > pEnd then
      (mergeInto d ps).map fun r => (r.1, p :: r.2)
    else if p.offset = dEnd ∨ d.offset = pEnd then
      mergeInto ⟨min d.offset p.offset, (d.bytes + p.bytes) % 2 ^ 64⟩ ps
    else none

def updateRefcountDiscard (discards : List DiscardRegion) (offset length : ℕ) :
    Option (List DiscardRegion) := do
  let (before, d, after) ← extendFirst offset length discards
  let (d, before) ← mergeInto d before
  let (d, after) ← mergeInto d after
  return before ++ d :: after

/-- The list after `qcow2_process_discards`, and the sectors that go to `bdrv_discard` -/
def qcow2ProcessDiscards (discards : List DiscardRegion) (ret : ℤ) :
    List DiscardRegion × List (ℕ × ℕ) :=
  ([], if 0 ≤ ret then discards.map fun d => (d.offset / 512, d.bytes / 512) else [])

/-! ## Regions with gaps between them -/

def Mem (x : ℕ) (d : DiscardRegion) : Prop := d.offset ≤ x ∧ x < d.offset + d.bytes

def Disjoint (p d : DiscardRegion) : Prop :=
  p.offset + p.bytes ≤ d.offset ∨ d.offset + d.bytes ≤ p.offset

/-- Neither overlapping nor adjacent -/
def Apart (p d : DiscardRegion) : Prop :=
  p.offset + p.bytes < d.offset ∨ d.offset + d.bytes < p.offset

/-- Not empty, and in the range of an `int64_t` -/
def Fits (d : DiscardRegion) : Prop := 0 < d.bytes ∧ d.offset + d.bytes ≤ 2 ^ 63

def Covers (ds : List DiscardRegion) (x : ℕ) : Prop := ∃ d ∈ ds, d.Mem x

@[simp] theorem covers_cons {d ds x} :
    Covers (d :: ds) x ↔ d.Mem x ∨ Covers ds x := by simp [Covers]

@[simp] theorem covers_append {ds es x} :
    Covers (ds ++ es) x ↔ Covers ds x ∨ Covers es x := by simp [Covers, or_and_right, exists_or]

theorem Apart.symm {p d : DiscardRegion} (h : p.Apart d) : d.Apart p := Or.symm h

variable {d p q new : DiscardRegion} {ds : List DiscardRegion}

/-- Two adjacent regions as one -/
def join (d p : DiscardRegion) : DiscardRegion := ⟨min d.offset p.offset, d.bytes + p.bytes⟩

def Adjacent (p d : DiscardRegion) : Prop :=
  p.offset = d.offset + d.bytes ∨ d.offset = p.offset + p.bytes

theorem Fits.join (hd : d.Fits) (hp : p.Fits) (h : p.Adjacent d) : (d.join p).Fits := by
  grind [Fits, Adjacent, DiscardRegion.join]

theorem Adjacent.mem_join (h : p.Adjacent d) (x : ℕ) : (d.join p).Mem x ↔ d.Mem x ∨ p.Mem x := by
  grind [Mem, Adjacent, join]

theorem Disjoint.join (h : q.Disjoint d) (hp : q.Apart p) (hadj : p.Adjacent d) (hq : q.Fits) :
    q.Disjoint (d.join p) := by
  grind [Disjoint, Apart, Adjacent, DiscardRegion.join, Fits]

theorem Apart.join (h : q.Apart d) (hp : q.Apart p) (hadj : p.Adjacent d) (hq : q.Fits) :
    q.Apart (d.join p) := by
  grind [Apart, Adjacent, DiscardRegion.join, Fits]

theorem Apart.disjoint (h : q.Apart p) : q.Disjoint p := h.imp le_of_lt le_of_lt

/-- A region does not meet one whose bytes it has none of. -/
theorem Disjoint.of_covers (hq : q.Fits) (hd : d.Fits) (hds : ∀ p ∈ ds, q.Disjoint p)
    (h : ∀ x, d.Mem x → Covers ds x) : q.Disjoint d := by
  by_contra hmeet
  obtain ⟨p, hp, hx⟩ := h (max q.offset d.offset) (by grind [Mem, Disjoint, Fits])
  grind [Mem, Disjoint, Fits]

/-! ## The two loops -/

/-- `d` has grown to `d'` by the entries of `ps` that are not kept. -/
structure Merged (d : DiscardRegion) (ps : List DiscardRegion) (d' : DiscardRegion)
    (kept : List DiscardRegion) : Prop where
  fits : d'.Fits
  sublist : kept.Sublist ps
  apart : ∀ p ∈ kept, p.Apart d'
  covers : ∀ x, d'.Mem x ∨ Covers kept x ↔ d.Mem x ∨ Covers ps x
  other : ∀ q : DiscardRegion, q.Fits → (∀ p ∈ ps, q.Apart p) → q.Apart d → q.Apart d'

/-- An entry that was passed stays apart from `d`, as the entries have gaps between them. -/
theorem mergeInto_spec : ∀ (ps : List DiscardRegion) {d : DiscardRegion}, d.Fits →
    (∀ p ∈ ps, p.Fits ∧ p.Disjoint d) → ps.Pairwise Apart →
    ∃ d' kept, mergeInto d ps = some (d', kept) ∧ Merged d ps d' kept
  | [], d, hd, _, _ =>
    ⟨d, [], rfl, hd, .refl _, nofun, fun _ => .rfl, fun _ _ _ => id⟩
  | p :: ps, d, hd, hps, hpw => by
    obtain ⟨⟨hp, hdisj⟩, hps⟩ := forall_mem_cons.1 hps
    obtain ⟨hpps, hpw⟩ := pairwise_cons.1 hpw
    rw [mergeInto, Nat.mod_eq_of_lt (by grind [Fits]), Nat.mod_eq_of_lt (by grind [Fits])]
    split_ifs with hgap hadj
    · obtain ⟨d', kept, hr, h⟩ := mergeInto_spec ps hd hps hpw
      refine ⟨d', p :: kept, by rw [hr]; rfl, h.fits, h.sublist.cons_cons p, ?_, fun x => ?_,
        fun q hq hqp => h.other q hq (forall_mem_cons.1 hqp).2⟩
      · exact forall_mem_cons.2 ⟨h.other p hp hpps hgap.symm, h.apart⟩
      · rw [covers_cons, covers_cons, or_left_comm, h.covers, or_left_comm]
    · rw [Nat.mod_eq_of_lt (by grind [Fits])]
      obtain ⟨d', kept, hr, h⟩ := mergeInto_spec ps (hd.join hp hadj)
        (fun q hq => ⟨(hps q hq).1, (hps q hq).2.join (hpps q hq).symm hadj (hps q hq).1⟩) hpw
      refine ⟨d', kept, hr, h.fits, h.sublist.cons p, h.apart, fun x => ?_, fun q hq hqp hqd => ?_⟩
      · rw [h.covers, Adjacent.mem_join hadj, covers_cons, or_assoc]
      · obtain ⟨hqp, hqps⟩ := forall_mem_cons.1 hqp
        exact h.other q hq hqps (hqd.join hqp hadj hq)
    · grind [Disjoint]

theorem extendFirst_spec (hnew : new.Fits) : ∀ ds : List DiscardRegion,
    (∀ p ∈ ds, p.Fits ∧ p.Disjoint new) → ds.Pairwise Apart →
    ∃ before d after, extendFirst new.offset new.bytes ds = some (before, d, after) ∧ d.Fits ∧
      (before ++ after).Sublist ds ∧ (∀ p ∈ before ++ after, p.Disjoint d) ∧
      ∀ x, d.Mem x ∨ Covers (before ++ after) x ↔ new.Mem x ∨ Covers ds x
  | [], _, _ => ⟨[], new, [], rfl, hnew, .refl _, nofun, fun _ => .rfl⟩
  | p :: ds, hds, hpw => by
    obtain ⟨⟨hp, hdisj⟩, hds⟩ := forall_mem_cons.1 hds
    obtain ⟨hpds, hpw⟩ := pairwise_cons.1 hpw
    have hsize : (max ((new.offset + new.bytes) % 2 ^ 64) ((p.offset + p.bytes) % 2 ^ 64) + 2 ^ 64 -
        min new.offset p.offset) % 2 ^ 64 =
        max (new.offset + new.bytes) (p.offset + p.bytes) - min new.offset p.offset := by
      obtain ⟨hpos, hle⟩ := hnew
      obtain ⟨hpos', hle'⟩ := hp
      omega
    rw [extendFirst, hsize, Nat.mod_eq_of_lt (by grind [Fits, Disjoint]),
      Nat.mod_eq_of_lt (by grind [Fits, Disjoint])]
    split_ifs with htouch hassert
    · have hadj : p.Adjacent new := by grind [Adjacent, Disjoint, Fits]
      refine ⟨[], new.join p, ds, ?_, hnew.join hp hadj, sublist_cons_self _ _,
        fun q hq => (hds q hq).2.join (hpds q hq).symm hadj (hds q hq).1, fun x => ?_⟩
      · rw [← hassert, add_comm p.bytes]
        rfl
      · rw [Adjacent.mem_join hadj, covers_cons, nil_append, or_assoc]
    · grind [Disjoint, Fits]
    · obtain ⟨before, d, after, hr, hd, hsub, hdis, hcov⟩ := extendFirst_spec hnew ds hds hpw
      have hpd : p.Disjoint d := .of_covers hp hd
        (forall_mem_cons.2 ⟨hdisj, fun q hq => (hpds q hq).disjoint⟩)
        fun x hx => covers_cons.2 ((hcov x).1 (.inl hx))
      refine ⟨p :: before, d, after, by rw [hr]; rfl, hd, hsub.cons_cons p,
        forall_mem_cons.2 ⟨hpd, hdis⟩, fun x => ?_⟩
      rw [cons_append, covers_cons, covers_cons, or_left_comm, hcov, or_left_comm]

/-- Entries with gaps between them, that hold the ranges of `pending` -/
structure Canonical (ds pending : List DiscardRegion) : Prop where
  fits : ∀ d ∈ ds, d.Fits
  apart : ds.Pairwise Apart
  covers : ∀ x, Covers ds x ↔ Covers pending x

/-- A discard is merged into the list. -/
theorem Canonical.update {pending : List DiscardRegion} (h : Canonical ds pending)
    (hnew : new.Fits) (hfree : ∀ p ∈ pending, new.Disjoint p) :
    ∃ ds', updateRefcountDiscard ds new.offset new.bytes = some ds' ∧
      Canonical ds' (new :: pending) := by
  have hds : ∀ p ∈ ds, p.Fits ∧ p.Disjoint new := fun p hp =>
    ⟨h.fits p hp, Or.symm (Disjoint.of_covers hnew (h.fits p hp) hfree
      fun x hx => (h.covers x).1 ⟨p, hp, hx⟩)⟩
  obtain ⟨before, d, after, hext, hd, hsub, hdisj, hcov⟩ := extendFirst_spec hnew ds hds h.apart
  have hfits : ∀ p ∈ before ++ after, p.Fits := fun p hp => h.fits p (hsub.subset hp)
  rw [forall_mem_append] at hdisj hfits
  obtain ⟨hb, ha, hba⟩ := pairwise_append.1 (h.apart.sublist hsub)
  obtain ⟨d₁, before', hr₁, h₁⟩ := mergeInto_spec before hd
    (fun p hp => ⟨hfits.1 p hp, hdisj.1 p hp⟩) hb
  have hdisj₁ : ∀ p ∈ after, p.Disjoint d₁ := fun p hp =>
    .of_covers (hfits.2 p hp) h₁.fits (forall_mem_cons.2
      ⟨hdisj.2 p hp, fun q hq => (hba q hq p hp).symm.disjoint⟩)
      fun x hx => covers_cons.2 ((h₁.covers x).1 (.inl hx))
  obtain ⟨d₂, after', hr₂, h₂⟩ := mergeInto_spec after h₁.fits
    (fun p hp => ⟨hfits.2 p hp, hdisj₁ p hp⟩) ha
  have hb₂ : ∀ p ∈ before', p.Apart d₂ := fun p hp => h₂.other p
    (hfits.1 p (h₁.sublist.subset hp)) (hba p (h₁.sublist.subset hp)) (h₁.apart p hp)
  refine ⟨before' ++ d₂ :: after', by simp [updateRefcountDiscard, hext, hr₁, hr₂], ?_, ?_,
    fun x => ?_⟩
  · simp only [forall_mem_append, forall_mem_cons]
    exact ⟨fun p hp => hfits.1 p (h₁.sublist.subset hp), h₂.fits,
      fun p hp => hfits.2 p (h₂.sublist.subset hp)⟩
  · refine pairwise_append.2 ⟨hb.sublist h₁.sublist, pairwise_cons.2
      ⟨fun p hp => (h₂.apart p hp).symm, ha.sublist h₂.sublist⟩, fun p hp => ?_⟩
    exact forall_mem_cons.2 ⟨hb₂ p hp, fun q hq =>
      hba p (h₁.sublist.subset hp) q (h₂.sublist.subset hq)⟩
  · have := h₁.covers x
    have := h₂.covers x
    have := h.covers x
    grind [covers_append, covers_cons]

/-! ## Runs -/

inductive DiscardCall where
  | updateRefcountDiscard (range : DiscardRegion)
  | qcow2ProcessDiscards (ret : ℤ)

/-- The list after some calls -/
def runDiscards (ds : List DiscardRegion) : List DiscardCall → Option (List DiscardRegion)
  | [] => some ds
  | .updateRefcountDiscard range :: calls => do
    runDiscards (← updateRefcountDiscard ds range.offset range.bytes) calls
  | .qcow2ProcessDiscards ret :: calls => runDiscards (qcow2ProcessDiscards ds ret).1 calls

/-- What was freed since the list was last processed -/
def pendingRanges (pending : List DiscardRegion) : List DiscardCall → List DiscardRegion
  | [] => pending
  | .updateRefcountDiscard range :: calls => pendingRanges (range :: pending) calls
  | .qcow2ProcessDiscards _ :: calls => pendingRanges [] calls

/-- No range is freed again before it is processed. -/
def FreedOnce (pending : List DiscardRegion) : List DiscardCall → Prop
  | [] => True
  | .updateRefcountDiscard range :: calls =>
    range.Fits ∧ (∀ p ∈ pending, range.Disjoint p) ∧ FreedOnce (range :: pending) calls
  | .qcow2ProcessDiscards _ :: calls => FreedOnce [] calls

theorem canonical_nil : Canonical [] [] := ⟨nofun, .nil, fun _ => .rfl⟩

theorem Canonical.run : ∀ (calls : List DiscardCall) {ds pending : List DiscardRegion},
    Canonical ds pending → FreedOnce pending calls →
    ∃ ds', runDiscards ds calls = some ds' ∧ Canonical ds' (pendingRanges pending calls)
  | [], ds, _, h, _ => ⟨ds, rfl, h⟩
  | .updateRefcountDiscard range :: calls, _, _, h, ⟨hfits, hfree, hcalls⟩ => by
    obtain ⟨ds₁, hds₁, h₁⟩ := h.update hfits hfree
    obtain ⟨ds₂, hds₂, h₂⟩ := h₁.run calls hcalls
    exact ⟨ds₂, by simp [runDiscards, hds₁, hds₂], h₂⟩
  | .qcow2ProcessDiscards _ :: calls, _, _, _, hcalls => canonical_nil.run calls hcalls

/-- The pending discards have gaps between them and are what was freed, and no assertion fails. -/
theorem runDiscards_canonical (calls : List DiscardCall) (h : FreedOnce [] calls) :
    ∃ ds, runDiscards [] calls = some ds ∧ ds.Pairwise Apart ∧
      ∀ x, Covers ds x ↔ Covers (pendingRanges [] calls) x := by
  obtain ⟨ds, hds, hcan⟩ := canonical_nil.run calls h
  exact ⟨ds, hds, hcan.apart, hcan.covers⟩

/-- A cluster between two others that are pending -/
theorem runDiscards_canonical_bridge : ∃ ds, runDiscards [] [.updateRefcountDiscard ⟨0, 512⟩,
      .updateRefcountDiscard ⟨1024, 512⟩, .updateRefcountDiscard ⟨512, 512⟩] = some ds ∧
    ds.Pairwise Apart ∧ ∀ x, Covers ds x ↔ Covers [⟨512, 512⟩, ⟨1024, 512⟩, ⟨0, 512⟩] x :=
  runDiscards_canonical _ (by simp [FreedOnce, Fits, Disjoint])

end DiscardRegion
end QemuArm
