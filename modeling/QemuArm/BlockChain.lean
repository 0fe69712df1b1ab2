import Mathlib

/-!
# Backing chains

An image has a length and, for every sector, data, zeroes, or nothing. A chain is a list of
images, the active one first : a sector without data is read from the next image, and beyond
the end of an image reads as zeroes (`view`). What a format driver answers about a run of
sectors is left open (`BlockDriver`), within what `bdrv_co_get_block_status` promises.
-/

namespace QemuArm

open Bool Nat Prod

variable {α : Type}

inductive BlockStatus (α : Type) where
  | data (d : α)
  | zero
  | unallocated

inductive BlockKind where
  | data
  | zero
  | unallocated
  deriving DecidableEq

@[simp] def BlockStatus.kind : BlockStatus α → BlockKind
  | data _ => .data
  | zero => .zero
  | unallocated => .unallocated

/-- A format driver. `pnum` is how many of `nb` sectors from `s` on it says are like `s`. -/
structure BlockDriver (α : Type) where
  pnum : (ℕ → BlockStatus α) → ℕ → ℕ → ℕ
  pnum_pos : ∀ m s nb, 0 < nb → 0 < pnum m s nb
  pnum_le : ∀ m s nb, pnum m s nb ≤ nb
  pnum_kind : ∀ m s nb t, s ≤ t → t < s + pnum m s nb → (m t).kind = (m s).kind
  /-- `bdrv_has_zero_init`, without a backing file -/
  zeroInit : Bool
  /-- `unallocated_blocks_are_zero` of `bdrv_get_info` -/
  unallocatedZero : Bool
  /-- the cluster size in sectors, 0 if there is none -/
  cluster : ℕ

structure BlockImage (α : Type) where
  drv : BlockDriver α
  len : ℕ
  status : ℕ → BlockStatus α

/-- What the first image of the chain reads as. -/
def view [Zero α] : List (BlockImage α) → ℕ → α
  | [], _ => 0
  | i :: is, s =>
    if s < i.len then
      match i.status s with
      | .data d => d
      | .zero => 0
      | .unallocated => view is s
    else 0

/-! ## Allocation -/

variable (i : BlockImage α) (backing : Option (BlockImage α))

/-- The flag `BDRV_BLOCK_ZERO`. Of an unallocated run only the first sector is compared with
the end of the backing file. -/
def blockZero (s : ℕ) : Bool :=
  match i.status s with
  | .data _ => false
  | .zero => true
  | .unallocated => backing.elim i.drv.unallocatedZero fun b => decide (b.len ≤ s)

def bdrvHasZeroInit : Bool :=
  backing.isNone && i.drv.zeroInit

/-- `bdrv_is_allocated`, with `pnum`. -/
def bdrvIsAllocated (s nb : ℕ) : Bool × ℕ :=
  if i.len ≤ s then (false, 0)
  else
    (decide ((i.status s).kind = .data) || (blockZero i backing s && !bdrvHasZeroInit i backing),
      i.drv.pnum i.status s (min nb (i.len - s)))

/-- The loop of `bdrv_is_allocated_above` over the images `is`, which stand above `rest`.
`first` is whether the loop is at its first image. -/
def allocatedAboveLoop (rest : List (BlockImage α)) (s nb : ℕ) :
    Bool → ℕ → List (BlockImage α) → Bool × ℕ
  | _, n, [] => (false, n)
  | first, n, i :: is =>
    let r := bdrvIsAllocated i (is ++ rest).head? s nb
    if r.1 then (true, r.2)
    else
      allocatedAboveLoop rest s nb false
        (if r.2 < n ∧ (first = true ∨ s + r.2 < i.len) then r.2 else n) is

def bdrvIsAllocatedAbove (is rest : List (BlockImage α)) (s nb : ℕ) : Bool × ℕ :=
  allocatedAboveLoop rest s nb true nb is

/-! ## How a sector is read -/

/-- A read of the sector goes through all of the images. -/
def Falls : List (BlockImage α) → ℕ → Prop
  | [], _ => True
  | i :: is, s => s < i.len ∧ (i.status s).kind = .unallocated ∧ Falls is s

/-- A read of the sector ends beyond the end of one of the images. -/
def Hides : List (BlockImage α) → ℕ → Prop
  | [], _ => False
  | i :: is, s => i.len ≤ s ∨ (i.status s).kind = .unallocated ∧ Hides is s

theorem BlockStatus.eq_unallocated {b : BlockStatus α} (h : b.kind = .unallocated) :
    b = .unallocated := by
  cases b <;> simp_all [kind]

section View

variable [Zero α]

theorem view_cons_unallocated {i : BlockImage α} {is : List (BlockImage α)} {s : ℕ}
    (hlt : s < i.len) (h : (i.status s).kind = .unallocated) : view (i :: is) s = view is s := by
  rw [view, if_pos hlt, BlockStatus.eq_unallocated h]

theorem view_append_falls : ∀ {is rest : List (BlockImage α)} {s : ℕ}, Falls is s →
    view (is ++ rest) s = view rest s
  | [], _, _, _ => rfl
  | _ :: _, _, _, ⟨hlt, hun, hfalls⟩ =>
    (view_cons_unallocated hlt hun).trans (view_append_falls hfalls)

theorem view_append_hides : ∀ {is rest : List (BlockImage α)} {s : ℕ}, Hides is s →
    view (is ++ rest) s = 0
  | i :: is, rest, s, h => by
    by_cases hlt : s < i.len
    · obtain ⟨hun, hh⟩ := h.resolve_left (not_le.mpr hlt)
      exact (view_cons_unallocated hlt hun).trans (view_append_hides hh)
    · rw [List.cons_append, view, if_neg hlt]

/-- Otherwise what is below does not matter. -/
theorem view_append_congr : ∀ {is rest rest' : List (BlockImage α)} {s : ℕ}, ¬Falls is s →
    view (is ++ rest) s = view (is ++ rest') s
  | [], _, _, _, h => absurd trivial h
  | i :: is, rest, rest', s, h => by
    rw [List.cons_append, List.cons_append, view, view]
    split_ifs with hlt
    · cases hst : i.status s with
      | data d => rfl
      | zero => rfl
      | unallocated =>
        exact view_append_congr fun hfalls => h ⟨hlt, by rw [hst]; rfl, hfalls⟩
    · rfl

end View

/-! ## What the queries find -/

section Queries

variable {i : BlockImage α} {backing : Option (BlockImage α)} {is rest : List (BlockImage α)}
  {s nb : ℕ}

theorem bdrvIsAllocated_fst (nb nb' : ℕ) :
    (bdrvIsAllocated i backing s nb).1 = (bdrvIsAllocated i backing s nb').1 := by
  rw [bdrvIsAllocated, bdrvIsAllocated]
  split <;> rfl

theorem bdrvIsAllocated_le : (bdrvIsAllocated i backing s nb).2 ≤ min nb (i.len - s) := by
  rw [bdrvIsAllocated]
  split
  · exact zero_le _
  · exact i.drv.pnum_le _ _ _

theorem bdrvIsAllocated_pos (hnb : 0 < nb) (hlt : s < i.len) :
    0 < (bdrvIsAllocated i backing s nb).2 := by
  rw [bdrvIsAllocated, if_neg (not_le.mpr hlt)]
  exact i.drv.pnum_pos _ _ _ (by omega)

theorem bdrvIsAllocated_kind {t} (hst : s ≤ t)
    (ht : t < s + (bdrvIsAllocated i backing s nb).2) : (i.status t).kind = (i.status s).kind := by
  rw [bdrvIsAllocated] at ht
  split at ht
  · omega
  · exact i.drv.pnum_kind _ _ _ t hst ht

/-- In an image with a backing file, what has data or zeroes, or is beyond the end of that file,
is reported as allocated. -/
theorem bdrvIsAllocated_some_iff {b} : (bdrvIsAllocated i (some b) s nb).1 = true ↔
    s < i.len ∧ ((i.status s).kind ≠ .unallocated ∨ b.len ≤ s) := by
  rw [bdrvIsAllocated]
  split
  · simp only [Bool.false_eq_true, false_iff]
    omega
  · simp only [bdrvHasZeroInit, Option.isNone_some, Bool.false_and, Bool.not_false, Bool.and_true,
      or_eq_true, decide_eq_true_eq]
    cases hst : i.status s <;> simp [blockZero, hst] <;> omega

theorem bdrvIsAllocated_false {b} (hlt : s < i.len)
    (h : (bdrvIsAllocated i (some b) s nb).1 = false) :
    (i.status s).kind = .unallocated ∧ s < b.len := by
  by_contra hnot
  rw [not_and_or, not_lt] at hnot
  exact Bool.eq_false_iff.1 h (bdrvIsAllocated_some_iff.2 ⟨hlt, hnot⟩)

/-- An image without a backing file may count its zeroes as not allocated. -/
theorem bdrvIsAllocated_false_none (hlt : s < i.len)
    (h : (bdrvIsAllocated i none s nb).1 = false) : (i.status s).kind ≠ .data := by
  rw [bdrvIsAllocated, if_neg (not_le.mpr hlt)] at h
  simp only [or_eq_false_iff, decide_eq_false_iff_not] at h
  exact h.1

/-- The sectors of a run that nothing above `rest` shows : they come from `rest`, from beyond
the end of an image, or from a last image of zeroes. -/
def Skippable [Zero α] (is rest : List (BlockImage α)) (t : ℕ) : Prop :=
  Falls is t ∨ Hides is t ∨ rest = [] ∧ view is t = 0

/-- Sectors that are not allocated above can be skipped. -/
theorem allocatedAboveLoop_false [Zero α] : ∀ {is : List (BlockImage α)} {first : Bool} {n m : ℕ},
    allocatedAboveLoop rest s nb first n is = (false, m) →
    m ≤ n ∧ ∀ t, s ≤ t → t < s + m → Skippable is rest t
  | [], _, _, _, h => by
    obtain rfl := (mk.inj h).2
    exact ⟨le_rfl, fun t _ _ => .inl trivial⟩
  | i :: is, first, n, m, h => by
    rw [allocatedAboveLoop] at h
    obtain ⟨r, hr⟩ := @exists_eq _ (bdrvIsAllocated i (is ++ rest).head? s nb)
    rw [← hr] at h
    split at h
    · exact absurd (mk.inj h).1 (by simp)
    rename_i halloc
    rw [not_eq_true] at halloc
    obtain ⟨hm, hrest⟩ := allocatedAboveLoop_false h
    refine ⟨hm.trans (by split <;> omega), fun t hst htm => ?_⟩
    -- beyond the end of this image it hides the rest
    by_cases hti : t < i.len
    · have hrun : t < s + r.2 := by
        split at hm
        · omega
        · rename_i hcond
          by_contra hge
          exact hcond ⟨by omega, .inr (by omega)⟩
      have hkind := bdrvIsAllocated_kind hst (hr ▸ hrun)
      have hslt : s < i.len := by omega
      cases hback : (is ++ rest).head? with
      | some b =>
        rw [hr, hback] at halloc
        have hun : (i.status t).kind = .unallocated :=
          hkind.trans (bdrvIsAllocated_false hslt halloc).1
        rcases hrest t hst htm with hf | hh | ⟨hnil, hview⟩
        · exact .inl ⟨hti, hun, hf⟩
        · exact .inr (.inl (.inr ⟨hun, hh⟩))
        · exact .inr (.inr ⟨hnil, (view_cons_unallocated hti hun).trans hview⟩)
      | none =>
        obtain ⟨rfl, rfl⟩ := List.append_eq_nil_iff.mp (List.head?_eq_none_iff.mp hback)
        rw [hr] at halloc
        have hdata : (i.status t).kind ≠ .data :=
          hkind ▸ bdrvIsAllocated_false_none hslt halloc
        refine .inr (.inr ⟨rfl, ?_⟩)
        rw [view, if_pos hti]
        cases hst' : i.status t with
        | data d => exact absurd (by rw [hst']; rfl) hdata
        | zero => rfl
        | unallocated => rfl
    · exact .inr (.inl (.inl (not_lt.mp hti)))

theorem allocatedAboveLoop_true : ∀ {is : List (BlockImage α)} {first : Bool} {n m : ℕ},
    0 < nb → allocatedAboveLoop rest s nb first n is = (true, m) → 0 < m ∧ m ≤ nb
  | [], _, _, _, _, h => absurd (mk.inj h).1 (by simp)
  | i :: is, first, n, m, hnb, h => by
    rw [allocatedAboveLoop] at h
    obtain ⟨r, hr⟩ := @exists_eq _ (bdrvIsAllocated i (is ++ rest).head? s nb)
    rw [← hr] at h
    split at h
    · rename_i halloc
      obtain rfl := (mk.inj h).2
      have hlt : s < i.len := by
        by_contra hge
        rw [hr, bdrvIsAllocated, if_pos (not_lt.mp hge)] at halloc
        exact absurd halloc (by simp)
      have hle := @bdrvIsAllocated_le _ i (is ++ rest).head? s nb
      have hpos := @bdrvIsAllocated_pos _ i (is ++ rest).head? s nb hnb hlt
      rw [← hr] at hle hpos
      exact ⟨hpos, by omega⟩
    · exact allocatedAboveLoop_true hnb h

/-- After the first image a run does not shrink to nothing. -/
theorem allocatedAboveLoop_pos (hnb : 0 < nb) : ∀ {is : List (BlockImage α)} {n m : ℕ}, 0 < n →
    allocatedAboveLoop rest s nb false n is = (false, m) → 0 < m
  | [], n, m, hn, h => by
    obtain rfl := (mk.inj h).2
    exact hn
  | i :: is, n, m, hn, h => by
    rw [allocatedAboveLoop] at h
    split at h
    · exact absurd (mk.inj h).1 (by simp)
    · refine allocatedAboveLoop_pos hnb ?_ h
      split
      · rename_i hcond
        rcases hcond.2 with hfirst | hlt
        · exact absurd hfirst (by simp)
        · exact bdrvIsAllocated_pos hnb (by omega)
      · exact hn

/-- An empty run : the first image has ended. -/
theorem bdrvIsAllocatedAbove_zero {is rest : List (BlockImage α)} (hnb : 0 < nb)
    (h : bdrvIsAllocatedAbove is rest s nb = (false, 0)) : ∃ i is', is = i :: is' ∧ i.len ≤ s := by
  cases is with
  | nil => exact absurd (mk.inj h).2 hnb.ne'
  | cons i is =>
    refine ⟨i, is, rfl, ?_⟩
    by_contra hlt
    rw [bdrvIsAllocatedAbove, allocatedAboveLoop] at h
    split at h
    · exact absurd (mk.inj h).1 (by simp)
    · refine absurd (allocatedAboveLoop_pos hnb ?_ h) (lt_irrefl 0)
      split
      · exact bdrvIsAllocated_pos hnb (not_le.mp hlt)
      · exact hnb

/-- A run that is not allocated does not go beyond the end of the first image. -/
theorem bdrvIsAllocatedAbove_cons_le [Zero α] {m}
    (h : bdrvIsAllocatedAbove (i :: is) rest s nb = (false, m)) : m ≤ i.len - s := by
  rw [bdrvIsAllocatedAbove, allocatedAboveLoop] at h
  split at h
  · exact absurd (mk.inj h).1 (by simp)
  · have hle := (allocatedAboveLoop_false h).1
    have hrun := @bdrvIsAllocated_le _ i (is ++ rest).head? s nb
    split at hle <;> simp_all <;> omega

/-! ## Which sectors are allocated -/

/-- What `bdrv_is_allocated` says of one sector -/
def sectorAllocated (i : BlockImage α) (backing : Option (BlockImage α)) (t : ℕ) : Bool :=
  (bdrvIsAllocated i backing t 1).1

/-- The sector is allocated in one of the images. -/
def AllocatedAbove (rest : List (BlockImage α)) : List (BlockImage α) → ℕ → Prop
  | [], _ => False
  | i :: is, t => sectorAllocated i (is ++ rest).head? t = true ∨ AllocatedAbove rest is t

/-- A run that `bdrv_is_allocated` finds in one of the images is of sectors that are alike. -/
def CorrectRuns (rest : List (BlockImage α)) : List (BlockImage α) → Prop
  | [] => True
  | i :: is => (∀ s nb t, s ≤ t → t < s + (bdrvIsAllocated i (is ++ rest).head? s nb).2 →
      sectorAllocated i (is ++ rest).head? t = sectorAllocated i (is ++ rest).head? s) ∧
    CorrectRuns rest is

theorem sectorAllocated_of_le {t} (h : i.len ≤ t) : sectorAllocated i backing t = false := by
  rw [sectorAllocated, bdrvIsAllocated, if_pos h]

/-- The answer is right for each sector of the run, if the drivers' runs are. -/
theorem allocatedAboveLoop_spec : ∀ {is : List (BlockImage α)} {first : Bool} {n m : ℕ} {a : Bool},
    CorrectRuns rest is → allocatedAboveLoop rest s nb first n is = (a, m) →
    (a = true ↔ AllocatedAbove rest is s) ∧ (a = false → m ≤ n) ∧
      ∀ t, s ≤ t → t < s + m → (AllocatedAbove rest is t ↔ a = true)
  | [], _, n, _, _, _, h => by
    cases h
    simp [AllocatedAbove]
  | i :: is, first, n, m, a, ⟨hi, his⟩, h => by
    have hone := @bdrvIsAllocated_fst _ i (is ++ rest).head? s nb 1
    rw [allocatedAboveLoop] at h
    split at h
    · rename_i halloc
      cases h
      have hs : sectorAllocated i (is ++ rest).head? s = true := hone.symm.trans halloc
      refine ⟨iff_of_true rfl (.inl hs), nofun, fun t hst ht => ?_⟩
      exact iff_of_true (.inl ((hi s nb t hst ht).trans hs)) rfl
    · rename_i halloc
      have hs : sectorAllocated i (is ++ rest).head? s = false :=
        hone.symm.trans (not_eq_true _ ▸ halloc)
      obtain ⟨ha, hm, hrun⟩ := allocatedAboveLoop_spec his h
      refine ⟨by rw [ha, AllocatedAbove, hs]; simp, fun hf => (hm hf).trans (by split <;> omega),
        fun t hst ht => ?_⟩
      rw [← hrun t hst ht, AllocatedAbove, or_iff_right_of_imp]
      intro hit
      -- the run of this image has ended before `t`, but not the image
      have hlt : t < i.len := by
        by_contra hge
        rw [sectorAllocated_of_le (not_lt.mp hge)] at hit
        cases hit
      have hend : s + (bdrvIsAllocated i (is ++ rest).head? s nb).2 ≤ t := by
        by_contra hin
        rw [hi s nb t hst (not_le.mp hin), hs] at hit
        cases hit
      cases a with
      | true => exact (hrun t hst ht).2 rfl
      | false =>
        have := hm rfl
        split at this <;> omega

/-- Where the runs of the images are correct, so is the run of the chain, and within the first
image it is not empty. -/
theorem bdrvIsAllocatedAbove_pointwise (is rest : List (BlockImage α)) (s nb : ℕ)
    (h : CorrectRuns rest is) :
    ((bdrvIsAllocatedAbove is rest s nb).1 = true ↔ AllocatedAbove rest is s) ∧
    (∀ t, s ≤ t → t < s + (bdrvIsAllocatedAbove is rest s nb).2 →
      (AllocatedAbove rest is t ↔ AllocatedAbove rest is s)) ∧
    (0 < nb → (∀ top ∈ is.head?, s < top.len) → 1 ≤ (bdrvIsAllocatedAbove is rest s nb).2) := by
  cases hr : bdrvIsAllocatedAbove is rest s nb with
  | mk a m =>
    obtain ⟨ha, -, hrun⟩ := allocatedAboveLoop_spec h hr
    refine ⟨ha, fun t hst ht => (hrun t hst ht).trans ha, fun hnb htop => ?_⟩
    cases a with
    | true => exact (allocatedAboveLoop_true hnb hr).1
    | false =>
      by_contra hm
      obtain rfl : m = 0 := by omega
      obtain ⟨i, is', rfl, hle⟩ := bdrvIsAllocatedAbove_zero hnb hr
      exact absurd (htop i rfl) (not_lt.mpr hle)

end Queries

/-- A driver that finds runs of one sector, as `raw` and most formats may. -/
def singleSector (α : Type) : BlockDriver α where
  pnum _ _ nb := min nb 1
  pnum_pos _ _ nb h := by omega
  pnum_le _ _ nb := by omega
  pnum_kind m s nb t hst ht := by
    obtain rfl : t = s := by omega
    rfl
  zeroInit := true
  unallocatedZero := true
  cluster := 0

def emptyImage (len : ℕ) : BlockImage ℕ := ⟨singleSector ℕ, len, fun _ => .unallocated⟩

def fullImage (len : ℕ) : BlockImage ℕ := ⟨singleSector ℕ, len, fun _ => .data 7⟩

/-- A sector beyond the end of the backing file counts as allocated. -/
theorem bdrvIsAllocatedAbove_pointwise_short :
    AllocatedAbove [] [emptyImage 2, emptyImage 1] 1 ∧
    1 ≤ (bdrvIsAllocatedAbove [emptyImage 2, emptyImage 1] [] 1 8).2 := by
  have hruns : CorrectRuns [] [emptyImage 2, emptyImage 1] := by
    refine ⟨fun s nb t hst ht => ?_, fun s nb t hst ht => ?_, trivial⟩ <;>
    · obtain rfl : t = s := by
        grind [bdrvIsAllocated, emptyImage, singleSector]
      rfl
  have h := bdrvIsAllocatedAbove_pointwise _ [] 1 8 hruns
  exact ⟨h.1.1 (by decide), h.2.2 (by decide) (by decide)⟩

end QemuArm
