import QemuArm.Qcow2RefTable

/-!
# The refcount table grows

The size of the new table, the number of blocks that describe it and the number of clusters that
both take depend on each other. The loop that looks for them only ever makes the table larger, and
stops at the latest when the table is large beside the blocks used so far
(`growTableSize_isSome`). Everything is then written inside of the new arrays, and the new table and
blocks describe themselves (`growRefcountTable_ok`).
-/

namespace QemuArm

open List Nat Option

namespace RefcountState

variable {s : RefcountState}

/-! ## Sizes -/

/-- The entries of the refcount table in one cluster. -/
def tableEntries (s : RefcountState) : ℕ := 2 ^ (s.clusterBits - 3)

theorem blockClusters_eq (s : RefcountState) : s.blockClusters = 4 * s.tableEntries := by
  have h := s.bits_le
  rw [blockClusters, tableEntries, show s.clusterBits - 1 = s.clusterBits - 3 + 2 by omega, pow_add]
  omega

theorem clusterSize_eq (s : RefcountState) : s.clusterSize = 8 * s.tableEntries := by
  have h := s.bits_le
  rw [clusterSize, tableEntries, show s.clusterBits = s.clusterBits - 3 + 3 by omega, pow_add]
  simp only [Nat.add_sub_cancel]
  omega

theorem tableEntries_ge (s : RefcountState) : 64 ≤ s.tableEntries := by
  have h := s.bits_le
  calc 64 = 2 ^ 6 := by norm_num
    _ ≤ s.tableEntries := Nat.pow_le_pow_right (by decide) (by omega)

theorem tableEntries_le (s : RefcountState) : s.tableEntries ≤ 2 ^ 18 := by
  have h := s.le_bits
  exact Nat.pow_le_pow_right (by decide) (by omega)

theorem sizeToClusters_table (s : RefcountState) (n : ℕ) :
    s.sizeToClusters (n * s.tableEntries * 8) = n := by
  have h := s.tableEntries_ge
  rw [sizeToClusters, s.clusterSize_eq]
  rw [Nat.div_eq_iff (by omega), show n * (8 * s.tableEntries) = n * s.tableEntries * 8 by ring]
  omega

/-! ## The next size -/

section Next

variable {m m' x y fuel : ℕ}

theorem growClusters_ge : ∀ {fuel x : ℕ}, growClusters m fuel x = some y → m ≤ y
  | 0, _, h => by cases h
  | fuel + 1, x, h => by
    rw [growClusters] at h
    split at h
    · exact growClusters_ge h
    · cases h
      omega

/-- A larger minimum that the result has anyway gives the same result. -/
theorem growClusters_stable : ∀ {fuel x : ℕ}, growClusters m fuel x = some y → m ≤ m' → m' ≤ y →
    growClusters m' fuel x = some y
  | 0, _, h, _, _ => by cases h
  | fuel + 1, x, h, hm, hy => by
    rw [growClusters] at h ⊢
    split at h
    · rw [if_pos (by omega)]
      exact growClusters_stable h hm hy
    · cases h
      rw [if_neg (by omega)]

theorem growClusters_fuel : ∀ {fuel fuel' x : ℕ}, growClusters m fuel x = some y → fuel ≤ fuel' →
    growClusters m fuel' x = some y
  | 0, _, _, h, _ => by cases h
  | fuel + 1, 0, _, _, hle => by omega
  | fuel + 1, fuel' + 1, x, h, hle => by
    rw [growClusters] at h ⊢
    split at h
    · next hlt =>
      rw [if_pos hlt]
      exact growClusters_fuel h (by omega)
    · next hlt =>
      rw [if_neg hlt]
      exact h

/-- A round makes the number larger, so a round for each number below the minimum is enough. -/
theorem growClusters_isSome (hm : m ≤ 2 ^ 30) : ∀ {fuel x : ℕ}, 0 < fuel → 1 ≤ x → m < fuel + x →
    ∃ y, growClusters m fuel x = some y ∧ y ≤ max x (2 * m)
  | 0, _, h, _, _ => absurd h (lt_irrefl 0)
  | fuel + 1, x, _, h1, hlt => by
    rw [growClusters]
    split
    · next hx =>
      rw [mod_eq_of_lt (by omega)]
      have hpos : 0 < fuel := by omega
      obtain ⟨y, hy, hle⟩ := growClusters_isSome hm hpos
        (show 1 ≤ (x * 3 + 1) / 2 by omega) (by omega)
      exact ⟨y, hy, by omega⟩
    · exact ⟨x, rfl, le_max_left _ _⟩

/-- The next size of a table, in clusters. -/
def nextSize (n : ℕ) : ℕ := (n * 3 + 1) / 2

theorem le_iterate_nextSize (x : ℕ) : ∀ k, x ≤ nextSize^[k] x
  | 0 => le_rfl
  | k + 1 => by
    have h := le_iterate_nextSize x k
    rw [Function.iterate_succ_apply', nextSize]
    omega

/-- The loop stops at the first size that is large enough. -/
theorem growClusters_least (hm : m ≤ 2 ^ 30) : ∀ {fuel x : ℕ}, growClusters m fuel x = some y →
    (∃ k, y = nextSize^[k] x) ∧ ∀ k, m ≤ nextSize^[k] x → y ≤ nextSize^[k] x
  | 0, _, h => by cases h
  | fuel + 1, x, h => by
    rw [growClusters] at h
    split at h
    · next hx =>
      rw [mod_eq_of_lt (by omega)] at h
      obtain ⟨⟨k, hk⟩, hleast⟩ := growClusters_least hm h
      refine ⟨⟨k + 1, hk⟩, fun j hj => ?_⟩
      cases j with
      | zero => exact absurd hx (not_lt.2 hj)
      | succ j => exact hleast j hj
    · obtain rfl := some.inj h
      exact ⟨⟨0, rfl⟩, fun k _ => le_iterate_nextSize x k⟩

end Next

/-- The sizes, in clusters, that the table goes through when it grows. -/
def tableSizes (s : RefcountState) (k : ℕ) : ℕ :=
  nextSize^[k] (max 1 (s.refcountTable.length / s.tableEntries))

/-- The clusters of a table of `n` clusters and of the blocks that describe it and themselves. -/
def metaClusters (s : RefcountState) (n : ℕ) : ℕ :=
  n + (1 + (n + s.blockClusters - 1) / s.blockClusters)

/-- A table of `n` clusters has an entry for each block in use and for each that describes the
table, and another one. -/
def HasRoom (s : RefcountState) (blocksUsed n : ℕ) : Prop :=
  blocksUsed + (s.metaClusters n + s.blockClusters - 1) / s.blockClusters < n * s.tableEntries

/-- The clusters that a table needs at least when the blocks in use are followed by those that
describe a table of `n` clusters. -/
def minTable (s : RefcountState) (blocksUsed n : ℕ) : ℕ :=
  (blocksUsed + (s.metaClusters n + s.blockClusters - 1) / s.blockClusters) / s.tableEntries + 1

variable {blocksUsed n : ℕ}

theorem minTable_le_iff : s.minTable blocksUsed n ≤ n ↔ s.HasRoom blocksUsed n := by
  have h64 := s.tableEntries_ge
  exact div_lt_iff_lt_mul (show 0 < s.tableEntries by omega)

/-- The clusters of the next table, as the loop of `next_refcount_table_size` finds them. -/
def nextClusters (s : RefcountState) (minClusters : ℕ) : Option ℕ :=
  growClusters minClusters minClusters (max 1 (s.refcountTable.length / s.tableEntries))

theorem nextRefcountTableSize_eq {minSize} (hmin : minSize < 2 ^ 32)
    (h : s.nextClusters (minSize / s.tableEntries + 1) = some n)
    (hn : n * s.tableEntries < 2 ^ 32) :
    s.nextRefcountTableSize minSize = some (n * s.tableEntries) := by
  have hdef : s.nextRefcountTableSize minSize =
      (s.nextClusters (minSize % 2 ^ 32 / s.tableEntries + 1)).map fun n =>
        n * s.tableEntries % 2 ^ 32 := rfl
  rw [hdef, mod_eq_of_lt hmin, h, map_some, mod_eq_of_lt hn]

/-- The sizes that the growth works with. -/
structure Bounds (s : RefcountState) (blocksUsed : ℕ) : Prop where
  used : blocksUsed ≤ 2 ^ 20
  length : s.refcountTable.length ≤ blocksUsed

theorem nextClusters_isSome {m} (h : s.Bounds blocksUsed) (hm : m * s.tableEntries ≤ 3 * 2 ^ 19) :
    0 < m → ∃ n, s.nextClusters m = some n ∧ n * s.tableEntries ≤ 3 * 2 ^ 20 ∧
      (∃ k, n = s.tableSizes k) ∧ ∀ k, m ≤ s.tableSizes k → n ≤ s.tableSizes k := by
  intro hpos
  have h64 := s.tableEntries_ge
  have hle := s.tableEntries_le
  have hm' : m * 64 ≤ m * s.tableEntries := mul_le_mul_left m h64
  obtain ⟨n, hn, hbound⟩ := growClusters_isSome (show m ≤ 2 ^ 30 by omega) hpos
    (le_max_left 1 (s.refcountTable.length / s.tableEntries)) (by omega)
  refine ⟨n, hn, ?_, growClusters_least (by omega) hn⟩
  have hdiv : s.refcountTable.length / s.tableEntries * s.tableEntries ≤ s.refcountTable.length :=
    div_mul_le_self _ _
  have hlen := h.length
  have hused := h.used
  rcases le_max_iff.1 hbound with hx | hx
  · rcases le_max_iff.1 hx with hx | hx
    · exact (mul_le_mul_right _ hx).trans (by omega)
    · exact (mul_le_mul_right _ hx).trans (by omega)
  · refine (mul_le_mul_right _ hx).trans ?_
    rw [mul_assoc]
    omega

/-! ## The loop for the size -/

theorem minTable_mono {n'} (h : n ≤ n') : s.minTable blocksUsed n ≤ s.minTable blocksUsed n' := by
  unfold minTable metaClusters
  gcongr

theorem ceilDiv_anti {a b} (ha : 0 < a) (hab : a ≤ b) : (n + b - 1) / b ≤ (n + a - 1) / a := by
  obtain ⟨k, hk⟩ := @exists_eq _ ((n + a - 1) / a)
  have hmod := div_add_mod (n + a - 1) a
  have hlt := mod_lt (n + a - 1) ha
  rw [← hk] at hmod ⊢
  have hle : a * k ≤ b * k := mul_le_mul_right k hab
  have hn : n + b - 1 < b * (k + 1) := by
    rw [mul_succ]
    omega
  exact Nat.le_of_lt_succ (Nat.div_lt_of_lt_mul hn)

theorem metaClusters_blocks_le : (s.metaClusters n + s.blockClusters - 1) / s.blockClusters ≤
    (n + (1 + (n + 256 - 1) / 256) + 256 - 1) / 256 := by
  have h64 := s.tableEntries_ge
  have hb : 256 ≤ s.blockClusters := by
    rw [s.blockClusters_eq]
    omega
  have hq : (n + s.blockClusters - 1) / s.blockClusters ≤ (n + 256 - 1) / 256 :=
    ceilDiv_anti (by decide) hb
  have hr := @ceilDiv_anti (s.metaClusters n) 256 s.blockClusters (by decide) hb
  rw [metaClusters] at hr ⊢
  omega

/-- A table that is large beside the blocks in use is large enough. -/
theorem minTable_le (h : blocksUsed + 3 ≤ n) : s.minTable blocksUsed n ≤ n := by
  have h64 := s.tableEntries_ge
  have hr_le := @metaClusters_blocks_le s n
  rw [minTable]
  obtain ⟨r, hr⟩ := @exists_eq _ ((s.metaClusters n + s.blockClusters - 1) / s.blockClusters)
  rw [← hr] at hr_le ⊢
  have hdiv : (blocksUsed + r) / s.tableEntries ≤ (blocksUsed + r) / 64 :=
    div_le_div_left h64 (by decide)
  omega

theorem minTable_bound (hused : blocksUsed ≤ 2 ^ 20) (hn : n * s.tableEntries ≤ 3 * 2 ^ 20) :
    s.minTable blocksUsed n * s.tableEntries ≤ 3 * 2 ^ 19 ∧
      blocksUsed + (s.metaClusters n + s.blockClusters - 1) / s.blockClusters < 2 ^ 22 := by
  have h64 := s.tableEntries_ge
  have hle := s.tableEntries_le
  have hn' : n * 64 ≤ n * s.tableEntries := mul_le_mul_left n h64
  have hr_le := @metaClusters_blocks_le s n
  rw [minTable]
  obtain ⟨r, hr⟩ := @exists_eq _ ((s.metaClusters n + s.blockClusters - 1) / s.blockClusters)
  rw [← hr] at hr_le ⊢
  have hdiv : (blocksUsed + r) / s.tableEntries * s.tableEntries ≤ blocksUsed + r :=
    div_mul_le_self _ _
  rw [succ_mul]
  omega

/-- What the loop needs for a table of `n` clusters. -/
theorem growTableSize_step {n' fuel} (h : s.Bounds blocksUsed)
    (hn : n * s.tableEntries ≤ 3 * 2 ^ 20)
    (hnext : s.nextClusters (s.minTable blocksUsed n) = some n')
    (hn' : n' * s.tableEntries ≤ 3 * 2 ^ 20) :
    s.growTableSize blocksUsed (fuel + 1) (n * s.tableEntries) =
      if n ≠ n' then s.growTableSize blocksUsed fuel (n' * s.tableEntries)
      else some (n * s.tableEntries) := by
  have h64 := s.tableEntries_ge
  have hsize : s.nextRefcountTableSize (blocksUsed +
      (s.metaClusters n + s.blockClusters - 1) / s.blockClusters) = some (n' * s.tableEntries) :=
    nextRefcountTableSize_eq ((minTable_bound h.used hn).2.trans (by decide)) hnext (by omega)
  unfold metaClusters at hsize
  rw [growTableSize, blocksClusters, s.sizeToClusters_table, hsize, bind_some]
  have hiff : n * s.tableEntries ≠ n' * s.tableEntries ↔ n ≠ n' :=
    not_congr (Nat.mul_left_inj (by omega))
  simp only [hiff]

theorem one_lt_minTable (blocksUsed n : ℕ) :
    (blocksUsed + 1) / s.tableEntries + 1 ≤ s.minTable blocksUsed n := by
  have h64 := s.tableEntries_ge
  have hb : s.blockClusters = 4 * s.tableEntries := s.blockClusters_eq
  have hq := zero_le ((n + s.blockClusters - 1) / s.blockClusters)
  unfold minTable metaClusters
  gcongr
  rw [one_le_div_iff (by omega)]
  omega

/-- The first size of the table with room for what describes it. -/
structure FirstRoom (s : RefcountState) (blocksUsed n : ℕ) : Prop where
  size : ∃ k, n = s.tableSizes k
  room : s.HasRoom blocksUsed n
  least : ∀ k, s.HasRoom blocksUsed (s.tableSizes k) → n ≤ s.tableSizes k

/-- While the loop goes on, the table gets larger, and it is not yet large beside the blocks in
use. It does not go past the first size with room. -/
theorem growTableSize_isSome (h : s.Bounds blocksUsed) :
    ∀ fuel n m, s.nextClusters m = some n → m ≤ s.minTable blocksUsed n →
      n * s.tableEntries ≤ 3 * 2 ^ 20 → (∃ k, n = s.tableSizes k) →
      (∀ k, s.HasRoom blocksUsed (s.tableSizes k) → n ≤ s.tableSizes k) →
      blocksUsed + 3 < fuel + n → 0 < fuel →
      ∃ n', s.growTableSize blocksUsed fuel (n * s.tableEntries) = some (n' * s.tableEntries) ∧
        n' * s.tableEntries ≤ 3 * 2 ^ 20 ∧ s.FirstRoom blocksUsed n'
  | 0, _, _, _, _, _, _, _, _, hpos => absurd hpos (lt_irrefl 0)
  | fuel + 1, n, m, hnext, hle, hn, hsize, hleast, hfuel, _ => by
    obtain ⟨n', hnext', hn', hsize', hleast'⟩ := nextClusters_isSome h
      (minTable_bound h.used hn).1 (succ_pos _)
    rw [growTableSize_step h hn hnext' hn']
    by_cases hstop : s.minTable blocksUsed n ≤ n
    · -- the next table is the same
      have hsame : s.nextClusters (s.minTable blocksUsed n) = some n :=
        growClusters_fuel (growClusters_stable hnext hle hstop) hle
      obtain rfl := some.inj (hnext'.symm.trans hsame)
      exact ⟨n', by rw [if_neg (not_not.2 rfl)], hn, hsize, minTable_le_iff.1 hstop, hleast⟩
    · have hge := growClusters_ge hnext'
      rw [if_pos (by omega)]
      have hlt : n < blocksUsed + 3 := by
        by_contra hlarge
        exact hstop (minTable_le (not_lt.1 hlarge))
      refine growTableSize_isSome h fuel n' _ hnext' (minTable_mono (by omega)) hn' hsize'
        (fun k hk => hleast' k ?_) (by omega) (by omega)
      exact (minTable_mono (hleast k hk)).trans (minTable_le_iff.2 hk)

/-! ## The arrays -/

theorem writeEntries_isSome (i : ℕ) (f : ℕ → ℕ) : ∀ n l, i + n ≤ l.length →
    ∃ l', writeEntries i f n l = some l' ∧ l'.length = l.length ∧
      ∀ k, l'[k]? = if i ≤ k ∧ k < i + n then some (f (k - i)) else l[k]?
  | 0, l, _ => ⟨l, rfl, rfl, fun k => by rw [if_neg (by omega)]⟩
  | n + 1, l, h => by
    obtain ⟨l', hl', hlen, hget⟩ := writeEntries_isSome i f n l (by omega)
    have hin : i + n < l'.length := by omega
    refine ⟨l'.set (i + n) (f n), ?_, by rw [length_set, hlen], fun k => ?_⟩
    · rw [writeEntries, hl', bind_some, writeEntry, if_pos hin]
    · rw [getElem?_set]
      by_cases hk : i + n = k
      · subst hk
        rw [if_pos rfl, if_pos hin, if_pos (by omega), Nat.add_sub_cancel_left]
      · rw [if_neg hk, hget]
        by_cases hlt : i ≤ k ∧ k < i + n
        · rw [if_pos hlt, if_pos (by omega)]
        · rw [if_neg hlt, if_neg (by omega)]

/-- What the growth of the table for `clusterIndex` has written : `blocksUsed` blocks are in use
before the new ones. -/
structure Growth.Ok (s : RefcountState) (blocksUsed clusterIndex newBlock : ℕ) (g : Growth) :
    Prop where
  metaOffset : g.metaOffset = blocksUsed * s.blockClusters
  size : s.FirstRoom blocksUsed g.tableClusters
  blocksClusters : g.tableClusters + g.blocksClusters = s.metaClusters g.tableClusters
  /-- The table is in whole clusters. -/
  length : g.newTable.length = g.tableClusters * s.tableEntries
  length_le : g.newTable.length ≤ 3 * 2 ^ 20
  room : blocksUsed + g.blocksClusters ≤ g.newTable.length
  /-- The entries of the blocks that describe the new metadata are those after the blocks in use. -/
  entry : ∀ k, g.newTable[k]? =
    if blocksUsed ≤ k ∧ k < blocksUsed + g.blocksClusters then
      some (g.metaOffset + (k - blocksUsed))
    else if k = clusterIndex / s.blockClusters then some newBlock
    else if k < s.refcountTable.length then s.refcountTable[k]?
    else if k < g.newTable.length then some 0 else none
  /-- The new blocks count the new blocks and the new table, once each. -/
  count : ∀ k < g.blocksClusters * s.blockClusters, g.newBlocks[k]? =
    some (if k < g.tableClusters + g.blocksClusters then 1 else 0)
  fits : g.tableClusters + g.blocksClusters ≤ g.blocksClusters * s.blockClusters
  blocksClusters_le : g.blocksClusters ≤ s.blockClusters

/-- For a cluster beyond the table the growth comes to an end, without a write outside of the new
arrays. -/
theorem growRefcountTable_ok {clusterIndex} (newBlock : ℕ)
    (hout : s.refcountTable.length ≤ clusterIndex / s.blockClusters)
    (hused : (clusterIndex + s.blockClusters - 1) / s.blockClusters ≤ maxReftableSize) :
    ∃ g, s.growRefcountTable clusterIndex newBlock = some (.ok g) ∧
      g.Ok s ((clusterIndex + s.blockClusters - 1) / s.blockClusters) clusterIndex newBlock := by
  have h64 := s.tableEntries_ge
  have hb : s.blockClusters = 4 * s.tableEntries := s.blockClusters_eq
  obtain ⟨bu, hbu⟩ := @exists_eq _ ((clusterIndex + s.blockClusters - 1) / s.blockClusters)
  obtain ⟨ti, hti⟩ := @exists_eq _ (clusterIndex / s.blockClusters)
  have hti_le : ti ≤ bu := by
    rw [hti, hbu]
    exact Nat.div_le_div_right (by omega)
  have hbu_le : bu ≤ 2 ^ 20 := hbu ▸ hused
  rw [← hbu] at hused ⊢
  have hbounds : s.Bounds bu := ⟨hbu_le, by omega⟩
  -- the size
  have hfirst : ((bu + 1) / s.tableEntries + 1) * s.tableEntries ≤ 3 * 2 ^ 19 := by
    have := div_mul_le_self (bu + 1) s.tableEntries
    have := s.tableEntries_le
    rw [succ_mul]
    omega
  obtain ⟨n₀, hn₀, hn₀_le, hsizes, hleast⟩ := nextClusters_isSome hbounds hfirst (succ_pos _)
  have hsize₀ : s.nextRefcountTableSize (bu + 1) = some (n₀ * s.tableEntries) :=
    nextRefcountTableSize_eq (by omega) hn₀ (by omega)
  obtain ⟨n, hgrow, hn, hfirstRoom⟩ := growTableSize_isSome hbounds (bu + 4) n₀ _ hn₀
    (one_lt_minTable _ _) hn₀_le hsizes
    (fun k hk => hleast k ((one_lt_minTable _ _).trans (minTable_le_iff.2 hk)))
    (by omega) (by omega)
  -- the table has room for the blocks in use and the new ones
  obtain ⟨q, hq⟩ := @exists_eq _ ((n + s.blockClusters - 1) / s.blockClusters)
  have hmeta : s.metaClusters n = n + (1 + q) := by rw [metaClusters, hq]
  have hroom : bu + (1 + q) ≤ n * s.tableEntries := by
    have hlt := hfirstRoom.room
    rw [HasRoom, hmeta] at hlt
    have hq_le : q ≤ (n + (1 + q) + s.blockClusters - 1) / s.blockClusters := by
      conv_lhs => rw [hq]
      exact Nat.div_le_div_right (by omega)
    omega
  have hq_le : q ≤ 192 := by
    have h256 : q ≤ (n + 256 - 1) / 256 := hq ▸ ceilDiv_anti (by decide) (by omega)
    have hn' : n * 64 ≤ n * s.tableEntries := mul_le_mul_left n h64
    omega
  -- the new blocks describe themselves and the table
  have hcap : n + (1 + q) ≤ (1 + q) * s.blockClusters := by
    have hmod := div_add_mod (n + s.blockClusters - 1) s.blockClusters
    have hlt := mod_lt (n + s.blockClusters - 1) (show 0 < s.blockClusters by omega)
    rw [← hq] at hmod
    rw [add_mul, mul_comm q]
    omega
  obtain ⟨t₁, ht₁, hlen₁, hget₁⟩ := writeEntries_isSome 0 s.blockOf s.refcountTable.length
    (List.replicate (n * s.tableEntries) 0) (by rw [length_replicate]; omega)
  rw [length_replicate] at hlen₁
  have hlt : ti < t₁.length := by omega
  obtain ⟨t₂, ht₂, hlen₂, hget₂⟩ := writeEntries_isSome bu (fun i => bu * s.blockClusters + i)
    (1 + q) (t₁.set ti newBlock) (by rw [length_set, hlen₁]; omega)
  rw [length_set, hlen₁] at hlen₂
  obtain ⟨nb, hnb, -, hget₃⟩ := writeEntries_isSome 0 (fun _ => 1) (n + (1 + q))
    (List.replicate ((1 + q) * s.blockClusters) 0) (by rw [length_replicate]; omega)
  refine ⟨⟨bu * s.blockClusters, 1 + q, n, t₂, nb⟩, ?_, ?_⟩
  · have hmod : ti % 2 ^ 32 = ti := mod_eq_of_lt (by omega)
    have hclusters : s.sizeToClusters (n * s.tableEntries * 8) = n := s.sizeToClusters_table n
    have hblocks : s.blocksClusters (n * s.tableEntries) = 1 + q := by
      rw [blocksClusters, hclusters, hq]
    rw [growRefcountTable]
    rw [← hbu, ← hti, if_neg (by omega), hmod]
    simp only [bind_eq_bind, hsize₀, hgrow, bind_some, hblocks, ht₁, writeEntry, hlt,
      if_true, ht₂, hclusters, hnb]
  · have hbc : 1 + q ≤ s.blockClusters := by omega
    refine ⟨rfl, hfirstRoom, hmeta.symm, hlen₂, hlen₂.trans_le hn, hroom.trans_eq hlen₂.symm,
      fun k => ?_, fun k hk => ?_, hcap, hbc⟩
    · rw [hget₂, ← hti]
      refine if_congr Iff.rfl rfl ?_
      rw [getElem?_set, hget₁]
      by_cases hk : ti = k
      · rw [if_pos hk, if_pos hlt, if_pos hk.symm]
      · rw [if_neg hk, if_neg (Ne.symm hk)]
        by_cases hold : k < s.refcountTable.length
        · rw [if_pos (by omega), if_pos hold, Nat.sub_zero, blockOf,
            getD_eq_getElem _ _ hold, getElem?_eq_getElem hold]
        · rw [if_neg (by omega), if_neg hold, getElem?_replicate, hlen₂]
    · rw [hget₃, getElem?_replicate, if_pos hk]
      by_cases hlow : k < n + (1 + q)
      · rw [if_pos (by omega), if_pos hlow]
      · rw [if_neg (by omega), if_neg hlow]

end RefcountState

end QemuArm
