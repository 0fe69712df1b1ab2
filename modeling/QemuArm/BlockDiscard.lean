import QemuArm.DirtyBitmap

/-!
# How discards are split

`bdrv_co_discard` cuts a request at the alignment and the limit of the driver, and gives the
pieces to the coroutine function of the driver. The asynchronous one gets all the rest of the
request each time, so that later calls repeat what earlier ones did.

`discardRequests_exact_iff` : the calls cover the range once, within the limits, exactly when
the driver has the coroutine function, or the limit and the alignment leave one call.
-/

namespace QemuArm

variable {α : Type} (bs : DirtyBdrv α)

/-- The calls of the driver, as sector and number of sectors, while it answers 0 or
`-ENOTSUP`. -/
def discardRequests : ℕ → ℕ → ℕ → List (ℕ × ℕ)
  | 0, _, _ => []
  | fuel + 1, sector, nb =>
    if nb = 0 then []
    else
      let num := discardNum bs sector nb
      (sector, if bs.discardSupport = .coDiscard then num else nb) ::
        discardRequests fuel (sector + num) (nb - num)

/-- `max_discard`, or its default. -/
def discardLimit : ℕ := if bs.maxDiscard ≠ 0 then bs.maxDiscard else 32768

/-- The calls go from `sector` to `stop`, each from where the one before ended. -/
def Consecutive (stop : ℕ) : ℕ → List (ℕ × ℕ) → Prop
  | sector, [] => sector = stop
  | sector, (s, n) :: rs => s = sector ∧ Consecutive stop (s + n) rs

structure DiscardExact (sector nb : ℕ) (rs : List (ℕ × ℕ)) : Prop where
  consecutive : Consecutive (sector + nb) sector rs
  size : ∀ r ∈ rs, 1 ≤ r.2 ∧ r.2 ≤ discardLimit bs
  aligned : bs.discardAlignment ∣ discardLimit bs → ∀ r ∈ rs.tail, bs.discardAlignment ∣ r.1

theorem discardLimit_pos : 0 < discardLimit bs := by
  unfold discardLimit
  split <;> omega

theorem discardNum_le (sector nb : ℕ) :
    discardNum bs sector nb ≤ nb ∧ discardNum bs sector nb ≤ discardLimit bs := by
  refine ⟨(min_le_left _ _).trans ?_, min_le_right _ _⟩
  split <;> omega

variable {bs} {sector nb : ℕ}

/-- The loop makes these calls. -/
theorem discardLoop_eq {drv : ℕ → ℕ → DriverResult α}
    (hdrv : ∀ s n, (drv s n).ret = 0 ∨ (drv s n).ret = -enotsup) : ∀ fuel sector nb contents,
    discardLoop bs drv fuel sector nb contents =
      ((discardRequests bs fuel sector nb).foldl
        (fun c r => overwrite c r.1 r.2 (drv r.1 r.2).data) contents, 0)
  | 0, _, _, _ => rfl
  | fuel + 1, sector, nb, contents => by
    rw [discardLoop, discardRequests]
    split_ifs with hnb
    · rfl
    all_goals
      dsimp only
      rw [if_neg (fun h => (hdrv _ _).elim h.1 h.2), discardLoop_eq hdrv fuel]
      rfl

/-- Where a call that is not the last one ends, if the limit is a multiple of the alignment. -/
theorem dvd_add_discardNum (hdvd : bs.discardAlignment ∣ discardLimit bs)
    (hlt : discardNum bs sector nb < nb) :
    bs.discardAlignment ∣ sector + discardNum bs sector nb := by
  have hle := Nat.le_of_dvd (discardLimit_pos bs) hdvd
  have hmod := Nat.mod_add_div sector bs.discardAlignment
  have hpos := Nat.pos_of_dvd_of_pos hdvd (discardLimit_pos bs)
  have hrem := Nat.mod_lt sector hpos
  have hnum : discardNum bs sector nb = min (if bs.discardAlignment ≠ 0 ∧
      bs.discardAlignment ≤ nb ∧ sector % bs.discardAlignment ≠ 0 then
      min nb bs.discardAlignment - sector % bs.discardAlignment else nb) (discardLimit bs) := rfl
  split_ifs at hnum with hcut
  · refine ⟨sector / bs.discardAlignment + 1, ?_⟩
    rw [hnum, Nat.mul_add]
    omega
  · -- a short request would be the last one
    have hzero : sector % bs.discardAlignment = 0 := by
      by_contra hne
      have : ¬bs.discardAlignment ≤ nb := fun h => hcut ⟨hpos.ne', h, hne⟩
      omega
    rw [show discardNum bs sector nb = discardLimit bs by omega]
    exact (Nat.dvd_of_mod_eq_zero hzero).add hdvd

theorem discardRequests_cons : ∀ {fuel sector nb} {r : ℕ × ℕ} {rs : List (ℕ × ℕ)},
    discardRequests bs fuel sector nb = r :: rs → r.1 = sector ∧ nb ≠ 0
  | _ + 1, sector, nb, r, rs, h => by
    rw [discardRequests] at h
    split_ifs at h with hnb <;> cases h <;> exact ⟨rfl, hnb⟩

theorem discardRequests_aligned (hdvd : bs.discardAlignment ∣ discardLimit bs) :
    ∀ fuel sector nb, ∀ r ∈ (discardRequests bs fuel sector nb).tail, bs.discardAlignment ∣ r.1
  | 0, _, _ => by simp [discardRequests]
  | fuel + 1, sector, nb => by
    rw [discardRequests]
    split_ifs with hnb
    · simp
    all_goals
      have ih := discardRequests_aligned hdvd fuel (sector + discardNum bs sector nb)
        (nb - discardNum bs sector nb)
      cases hrs : discardRequests bs fuel (sector + discardNum bs sector nb)
        (nb - discardNum bs sector nb) with
      | nil => simp [hrs]
      | cons r rs =>
        obtain ⟨hr, hne⟩ := discardRequests_cons hrs
        rw [hrs] at ih
        simp only [List.tail_cons, hrs]
        exact List.forall_mem_cons.2 ⟨hr ▸ dvd_add_discardNum hdvd (by omega), ih⟩

/-- The coroutine function gets the pieces. -/
theorem discardRequests_consecutive (hco : bs.discardSupport = .coDiscard) :
    ∀ fuel sector nb, nb ≤ fuel →
      Consecutive (sector + nb) sector (discardRequests bs fuel sector nb) ∧
        ∀ r ∈ discardRequests bs fuel sector nb, 1 ≤ r.2 ∧ r.2 ≤ discardLimit bs
  | 0, sector, nb, hnb => by
    obtain rfl := Nat.le_zero.1 hnb
    simp [discardRequests, Consecutive]
  | fuel + 1, sector, nb, hle => by
    rw [discardRequests]
    split_ifs with hnb
    · simp [Consecutive, hnb]
    · have hpos : 0 < discardNum bs sector nb := discardNum_pos bs hnb
      have hnum := discardNum_le bs sector nb
      obtain ⟨hcons, hsize⟩ := discardRequests_consecutive hco fuel
        (sector + discardNum bs sector nb) (nb - discardNum bs sector nb) (by omega)
      rw [Nat.add_assoc, Nat.add_sub_cancel' hnum.1] at hcons
      exact ⟨⟨rfl, hcons⟩, List.forall_mem_cons.2 ⟨⟨hpos, hnum.2⟩, hsize⟩⟩

theorem discardNum_eq_iff : discardNum bs sector nb = nb ↔ nb ≤ discardLimit bs ∧
    (bs.discardAlignment = 0 ∨ nb < bs.discardAlignment ∨ bs.discardAlignment ∣ sector) := by
  have hnum : discardNum bs sector nb = min (if bs.discardAlignment ≠ 0 ∧
      bs.discardAlignment ≤ nb ∧ sector % bs.discardAlignment ≠ 0 then
      min nb bs.discardAlignment - sector % bs.discardAlignment else nb) (discardLimit bs) := rfl
  rw [hnum, Nat.dvd_iff_mod_eq_zero]
  split <;> omega

/-- The calls of the driver are an exact division of the request exactly when the driver has the
coroutine function, or the request is within the limit and does not start, with an alignment or
more to do, off the alignment. -/
theorem discardRequests_exact_iff (bs : DirtyBdrv α) (drv : ℕ → ℕ → DriverResult α)
    (hdrv : ∀ s n, (drv s n).ret = 0 ∨ (drv s n).ret = -enotsup) (sector nb : ℕ)
    (contents : ℕ → α) :
    (∀ fuel ≥ nb, discardLoop bs drv fuel sector nb contents =
      ((discardRequests bs nb sector nb).foldl
        (fun c r => overwrite c r.1 r.2 (drv r.1 r.2).data) contents, 0)) ∧
    (DiscardExact bs sector nb (discardRequests bs nb sector nb) ↔
      bs.discardSupport = .coDiscard ∨ nb ≤ discardLimit bs ∧
        (bs.discardAlignment = 0 ∨ nb < bs.discardAlignment ∨ bs.discardAlignment ∣ sector)) := by
  rw [← discardNum_eq_iff]
  refine ⟨fun fuel hfuel => ?_, fun h => ?_, fun h => ?_⟩
  · rw [discardLoop_fuel bs drv fuel sector nb contents hfuel, discardLoop_eq hdrv]
  · by_contra hnot
    obtain ⟨haio, hnum⟩ := not_or.1 hnot
    have hle := (discardNum_le bs sector nb).1
    have hpos : 0 < discardNum bs sector nb := discardNum_pos bs (by omega)
    obtain ⟨n, rfl⟩ : ∃ n, nb = n + 2 := ⟨nb - 2, by omega⟩
    have hcons := h.consecutive
    rw [discardRequests, if_neg (by omega)] at hcons
    dsimp only at hcons
    rw [if_neg haio, discardRequests, if_neg (by omega)] at hcons
    -- the second call starts before the end of the first
    have hstart := hcons.2.1
    omega
  · have hboth : Consecutive (sector + nb) sector (discardRequests bs nb sector nb) ∧
        ∀ r ∈ discardRequests bs nb sector nb, 1 ≤ r.2 ∧ r.2 ≤ discardLimit bs := by
      by_cases hco : bs.discardSupport = .coDiscard
      · exact discardRequests_consecutive hco nb sector nb le_rfl
      have hnum := h.resolve_left hco
      cases nb with
      | zero => simp [discardRequests, Consecutive]
      | succ n =>
        have hle := (discardNum_le bs sector (n + 1)).2
        have hnil : ∀ s, discardRequests bs n s 0 = [] := fun s => by cases n <;> rfl
        simp [discardRequests, Consecutive, hco, hnum, hnil, hnum ▸ hle]
    exact ⟨hboth.1, hboth.2, fun hdvd => discardRequests_aligned hdvd nb sector nb⟩

/-- Two sectors, discarded one at a time. -/
def twoSectors (support : DiscardSupport) : DirtyBdrv ℕ :=
  { oneSector with
    totalSectors := 2, total_le := by decide, unmap := true, discardSupport := support
    maxDiscard := 1 }

/-- With `bdrv_co_discard` the two sectors are asked for one after the other. -/
theorem discardRequests_exact_two :
    discardLoop (twoSectors .coDiscard) (fun _ _ => ⟨0, fun _ => 1⟩) 2 0 2 (fun _ => 0) =
      ([(0, 1), (1, 1)].foldl (fun c r => overwrite c r.1 r.2 fun _ => 1) fun _ => 0, 0) ∧
    DiscardExact (twoSectors .coDiscard) 0 2 [(0, 1), (1, 1)] :=
  have h := discardRequests_exact_iff (twoSectors .coDiscard)
    (fun _ _ => ⟨0, fun _ => 1⟩) (fun _ _ => .inl rfl) 0 2 fun _ => 0
  ⟨h.1 2 le_rfl, h.2.2 (.inl rfl)⟩

/-- The asynchronous function is asked for the second sector twice. -/
theorem discardRequests_exact_fail :
    discardRequests (twoSectors .aioDiscard) 2 0 2 = [(0, 2), (1, 1)] ∧
      ¬Consecutive 2 0 [(0, 2), (1, 1)] :=
  ⟨rfl, by simp [Consecutive]⟩

end QemuArm
