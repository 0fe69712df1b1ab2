import QemuArm.BlockChain

/-!
# The allocation scan of a backup

In top mode `backup_run` asks for every cluster whether the topmost image has one of its
sectors. The answer for a sector beyond the end of the device is a run of length 0, and the
loop does not stop at it.

`backupScan_iff` : whatever runs the driver reports, the scan ends with the right answer,
exactly when the cluster has a sector that no run hides, or lies in the device as a whole and
has no allocated sector. `backupScan_endless` is a device of one sector.
-/

namespace QemuArm

/-- `BACKUP_SECTORS_PER_CLUSTER` -/
def backupSectorsPerCluster : ℕ := 128

variable {α : Type} (i : BlockImage α) (backing : Option (BlockImage α)) (a : ℕ)

/-- The inner loop of `backup_run`, at sector `k` of the cluster that starts at `a` : whether
the cluster is copied. -/
def backupScan : ℕ → ℕ → Option Bool
  | 0, _ => none
  | fuel + 1, k =>
    if k < backupSectorsPerCluster then
      let r := bdrvIsAllocated i backing (a + k) (backupSectorsPerCluster - k)
      if r.1 then some true else backupScan fuel (k + r.2)
    else some false

/-- A sector of the cluster is allocated. -/
def ClusterAllocated : Prop :=
  ∃ k < backupSectorsPerCluster, sectorAllocated i backing (a + k) = true

/-- The scan ends, with the right answer. -/
def ScanOk : Prop :=
  ∃ fuel r, backupScan i backing a fuel 0 = some r ∧ (r = true ↔ ClusterAllocated i backing a)

/-- An allocated sector that no run hides : before it, back to a sector of another kind or to
the start of the cluster, all are allocated. -/
def Found (k : ℕ) : Prop :=
  k < backupSectorsPerCluster ∧ ∀ j ≤ k,
    (∀ u, j ≤ u → u ≤ k → (i.status (a + u)).kind = (i.status (a + k)).kind) →
    sectorAllocated i backing (a + j) = true

variable {i backing a} {k : ℕ}

theorem lt_of_sectorAllocated (h : sectorAllocated i backing k = true) : k < i.len := by
  by_contra hge
  rw [sectorAllocated_of_le (Nat.not_lt.1 hge)] at h
  cases h

theorem Found.allocated (h : Found i backing a k) : sectorAllocated i backing (a + k) = true :=
  h.2 k le_rfl fun u hu huk => by rw [le_antisymm huk hu]

/-! ## The scan ends -/

theorem Found.backupScan {m : ℕ} (hm : Found i backing a m) :
    ∀ n k, m < k + n → k ≤ m → ∃ fuel, backupScan i backing a fuel k = some true
  | 0, k, hn, hk => absurd hn hk.not_gt
  | n + 1, k, hn, hk => by
    have hlen := lt_of_sectorAllocated hm.allocated
    have hk' := hk.trans_lt hm.1
    have hone := @bdrvIsAllocated_fst _ i backing (a + k) (backupSectorsPerCluster - k) 1
    have hpos := @bdrvIsAllocated_pos _ i backing (a + k) (backupSectorsPerCluster - k)
      (by omega) (by omega)
    have hkind := @bdrvIsAllocated_kind _ i backing (a + k) (backupSectorsPerCluster - k)
    cases hr : bdrvIsAllocated i backing (a + k) (backupSectorsPerCluster - k) with
    | mk al r =>
    rw [hr] at hone hpos hkind
    cases al with
    | true => exact ⟨1, by simp [QemuArm.backupScan, hk', hr]⟩
    | false =>
      have hnext : k + r ≤ m := by
        by_contra hgt
        refine absurd (hone.trans (hm.2 k hk fun u hu hum => ?_)) (by simp)
        exact (hkind (by omega) (by omega)).trans (hkind (by omega) (by omega)).symm
      obtain ⟨fuel, hf⟩ := hm.backupScan n (k + r) (by omega) hnext
      exact ⟨fuel + 1, by simp [QemuArm.backupScan, hk', hr, hf]⟩

theorem backupScan_false (hlen : a + backupSectorsPerCluster ≤ i.len)
    (hno : ¬ClusterAllocated i backing a) :
    ∀ n k, backupSectorsPerCluster < k + n → ∃ fuel, backupScan i backing a fuel k = some false
  | 0, k, hn => ⟨1, by simpa [backupScan] using Nat.le_of_lt hn⟩
  | n + 1, k, hn => by
    by_cases hk : k < backupSectorsPerCluster
    · have hone := @bdrvIsAllocated_fst _ i backing (a + k) (backupSectorsPerCluster - k) 1
      have hpos := @bdrvIsAllocated_pos _ i backing (a + k) (backupSectorsPerCluster - k)
        (by omega) (by omega)
      obtain ⟨fuel, hf⟩ := backupScan_false hlen hno n (k + (bdrvIsAllocated i backing (a + k)
        (backupSectorsPerCluster - k)).2) (by omega)
      refine ⟨fuel + 1, ?_⟩
      rw [backupScan, if_pos hk]
      exact (if_neg fun h => hno ⟨k, hk, hone.symm.trans h⟩).trans hf
    · exact ⟨1, by simp [backupScan, hk]⟩

/-! ## What a driver with long runs hides -/

open Classical in
/-- A driver that reports each run as a whole. -/
noncomputable def BlockDriver.longRuns (d : BlockDriver α) : BlockDriver α :=
  { d with
    pnum := fun m s => Nat.findGreatest fun n => ∀ t, s ≤ t → t < s + n → (m t).kind = (m s).kind
    pnum_pos := fun m s nb h =>
      Nat.le_findGreatest h fun t hs ht => by rw [le_antisymm (Nat.le_of_lt_succ ht) hs]
    pnum_le := fun _ _ nb => Nat.findGreatest_le nb
    pnum_kind := fun m s nb => Nat.findGreatest_spec (Nat.zero_le nb)
      (P := fun n => ∀ t, s ≤ t → t < s + n → (m t).kind = (m s).kind) fun t hs ht => by omega }

theorem longRuns_lt {d : BlockDriver α} {m : ℕ → BlockStatus α} {s nb : ℕ}
    (h : d.longRuns.pnum m s nb < nb) : (m (s + d.longRuns.pnum m s nb)).kind ≠ (m s).kind := by
  intro heq
  refine Nat.findGreatest_is_greatest (Nat.lt_succ_self _) h fun t hs ht => ?_
  rcases Nat.lt_succ_iff_lt_or_eq.1 ht with hlt | rfl
  · exact d.longRuns.pnum_kind m s nb t hs hlt
  · exact heq

/-- Where the loop is with such a driver : at the start of a run. -/
def RunStart (i : BlockImage α) (a k : ℕ) : Prop :=
  k = 0 ∨ a + k ≤ i.len ∧ (k < backupSectorsPerCluster → a + k < i.len →
    (i.status (a + k - 1)).kind ≠ (i.status (a + k)).kind)

theorem RunStart.next (hdrv : i.drv = i.drv.longRuns) (hk : k < backupSectorsPerCluster)
    (h : RunStart i a k) :
    RunStart i a (k + (bdrvIsAllocated i backing (a + k) (backupSectorsPerCluster - k)).2) := by
  by_cases hlt : a + k < i.len
  · have hpos := @bdrvIsAllocated_pos _ i backing (a + k) _ (Nat.sub_pos_of_lt hk) hlt
    have hle := @bdrvIsAllocated_le _ i backing (a + k) (backupSectorsPerCluster - k)
    have hkind := @bdrvIsAllocated_kind _ i backing (a + k) (backupSectorsPerCluster - k)
    rw [bdrvIsAllocated, if_neg (Nat.not_le.2 hlt), hdrv] at hpos hle hkind ⊢
    dsimp only at hpos hle hkind ⊢
    refine .inr ⟨by omega, fun hend hend' => ?_⟩
    rw [hkind (by omega) (by omega), ← Nat.add_assoc]
    exact (longRuns_lt (by omega)).symm
  · rwa [bdrvIsAllocated, if_pos (Nat.not_lt.1 hlt)]

theorem backupScan_longRuns (hdrv : i.drv = i.drv.longRuns) : ∀ {fuel k : ℕ} {r : Bool},
    RunStart i a k → backupScan i backing a fuel k = some r →
    if r then ∃ k, Found i backing a k else a + backupSectorsPerCluster ≤ i.len
  | fuel + 1, k, r, hk, h => by
    rw [backupScan] at h
    split at h
    · rename_i hlt
      dsimp only at h
      split at h
      · rename_i hal
        cases h
        rw [bdrvIsAllocated_fst _ 1] at hal
        refine ⟨k, hlt, fun j hj hall => ?_⟩
        rcases hj.eq_or_lt with rfl | hjk
        · exact hal
        · rcases hk with rfl | hk
          · omega
          · refine absurd ?_ (hk.2 hlt (lt_of_sectorAllocated hal))
            rw [Nat.add_sub_assoc (by omega)]
            exact hall (k - 1) (by omega) (by omega)
      · exact backupScan_longRuns hdrv (hk.next hdrv hlt) h
    · rename_i hge
      cases h
      rcases hk with rfl | hk
      · exact absurd (by decide) hge
      · have := hk.1
        rw [if_neg (by simp)]
        omega

theorem sectorAllocated_drv {d : BlockDriver α} (hz : d.zeroInit = i.drv.zeroInit)
    (hu : d.unallocatedZero = i.drv.unallocatedZero) (t : ℕ) :
    sectorAllocated { i with drv := d } backing t = sectorAllocated i backing t := by
  simp only [sectorAllocated, bdrvIsAllocated, blockZero, bdrvHasZeroInit, hz, hu]
  split <;> rfl

/-- The scan is right whatever runs the driver reports exactly when no run can hide the
cluster's allocated sectors or, without one, the cluster lies in the device. -/
theorem backupScan_iff (i : BlockImage α) (backing : Option (BlockImage α)) (a : ℕ) :
    (∀ d : BlockDriver α, d.zeroInit = i.drv.zeroInit →
      d.unallocatedZero = i.drv.unallocatedZero → ScanOk { i with drv := d } backing a) ↔
    (∃ k, Found i backing a k) ∨
      a + backupSectorsPerCluster ≤ i.len ∧ ¬ClusterAllocated i backing a := by
  constructor
  · intro h
    obtain ⟨fuel, r, hr, hiff⟩ := h i.drv.longRuns rfl rfl
    have hend := backupScan_longRuns rfl (.inl rfl) hr
    simp only [ClusterAllocated, Found, @sectorAllocated_drv _ i backing i.drv.longRuns rfl rfl]
      at hiff hend
    cases r with
    | true => exact .inl hend
    | false => exact .inr ⟨hend, fun hal => nomatch hiff.2 hal⟩
  · intro h d hz hu
    have hdrv := @sectorAllocated_drv _ i backing d hz hu
    simp only [ScanOk, ClusterAllocated, hdrv]
    rcases h with ⟨k, hk⟩ | ⟨hlen, hno⟩
    · have hk' : Found { i with drv := d } backing a k := by simpa only [Found, hdrv] using hk
      obtain ⟨fuel, hf⟩ := hk'.backupScan (k + 1) 0 (by omega) (by omega)
      exact ⟨fuel, true, hf, iff_of_true rfl ⟨k, hk.1, hk.allocated⟩⟩
    · obtain ⟨fuel, hf⟩ := @backupScan_false _ { i with drv := d } backing a hlen
        (by simpa only [ClusterAllocated, hdrv] using hno) (backupSectorsPerCluster + 1) 0
        (by omega)
      exact ⟨fuel, false, hf, iff_of_false nofun hno⟩

theorem backupScan_end : ∀ fuel, backupScan (emptyImage 1) (some (emptyImage 1)) 0 fuel 1 = none
  | 0 => rfl
  | fuel + 1 => backupScan_end fuel

/-- An image of one sector over a backing file of the same size : the scan never ends. -/
theorem backupScan_endless : ¬ScanOk (emptyImage 1) (some (emptyImage 1)) 0 := by
  rintro ⟨fuel, r, h, -⟩
  cases fuel with
  | zero => cases h
  | succ fuel => exact nomatch (backupScan_end fuel).symm.trans h

end QemuArm
