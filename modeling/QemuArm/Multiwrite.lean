import Mathlib

/-!
# Merging write requests

`multiwrite_merge` of `block.c` : the requests, sorted by their first sector, are folded into one
request as long as each begins no later than the one before it ends and the vectors fit into
`IOV_MAX`. The merged request takes the sectors of the first up to where the second begins, and
then all of the second. What the first has beyond the end of the second is cut off.

The data of every sector that is written is that of a request which covers the sector, and nothing
is lost exactly when a request to come, or one that is already out, covers what is cut off
(`multiwriteMerge_preserves_iff`).
-/

namespace QemuArm

open List

/-! ## Vectors -/

structure Iovec where
  iovBase : ℕ
  iovLen : ℕ

/-- `QEMUIOVector`. -/
structure QemuIoVector where
  iov : List Iovec
  size : ℕ
  size_eq : size = (iov.map Iovec.iovLen).sum

open QemuIoVector

namespace QemuIoVector

variable (q : QemuIoVector)

def niov : ℕ := q.iov.length

/-- `qemu_iovec_init`. -/
def init : QemuIoVector := ⟨[], 0, rfl⟩

/-- `qemu_iovec_add`. -/
def add (base len : ℕ) : QemuIoVector where
  iov := q.iov ++ [⟨base, len⟩]
  size := q.size + len
  size_eq := by rw [List.map_append, List.sum_append, ← q.size_eq]; rfl

/-- The loop of `qemu_iovec_concat_iov`, with `sbytes` bytes still to be copied; `none` when the
offset is beyond the end of the source. -/
def concatIov (dst : QemuIoVector) : List Iovec → ℕ → ℕ → Option QemuIoVector
  | [], soffset, sbytes => if sbytes = 0 ∨ soffset = 0 then some dst else none
  | v :: src, soffset, sbytes =>
    if sbytes = 0 then some dst
    else if soffset < v.iovLen then
      let len := min (v.iovLen - soffset) sbytes
      concatIov (dst.add (v.iovBase + soffset) len) src 0 (sbytes - len)
    else concatIov dst src (soffset - v.iovLen) sbytes

/-- `qemu_iovec_concat`. -/
def concat (dst src : QemuIoVector) (soffset sbytes : ℕ) : Option QemuIoVector :=
  concatIov dst src.iov soffset sbytes

/-- The addresses of the bytes of some vectors, in order. -/
def iovAddrs (iov : List Iovec) : List ℕ :=
  iov.flatMap fun v => List.range' v.iovBase v.iovLen

def addrs : List ℕ := iovAddrs q.iov

theorem length_addrs : q.addrs.length = q.size := by
  rw [addrs, iovAddrs, length_flatMap, q.size_eq]
  simp

theorem addrs_add (base len : ℕ) : (q.add base len).addrs = q.addrs ++ range' base len := by
  rw [addrs, addrs, iovAddrs, iovAddrs, add, flatMap_append, flatMap_singleton]

theorem take_range' (base len n : ℕ) : (range' base len).take n = range' base (min len n) := by
  refine ext_getElem ?_ fun i h₁ h₂ => ?_
  · rw [length_take, length_range', length_range', Nat.min_comm]
  · rw [getElem_take, getElem_range', getElem_range']

/-- From the start of the source, the first `sbytes` bytes are appended. -/
theorem concatIov_addrs : ∀ src dst (sbytes : ℕ),
    ∃ q, concatIov dst src 0 sbytes = some q ∧ q.addrs = dst.addrs ++ (iovAddrs src).take sbytes
  | [], dst, sbytes => by
    refine ⟨dst, ?_, ?_⟩
    · rw [concatIov, if_pos (.inr rfl)]
    · rw [iovAddrs, flatMap_nil, take_nil, append_nil]
  | v :: src, dst, sbytes => by
    have hcons : iovAddrs (v :: src) = range' v.iovBase v.iovLen ++ iovAddrs src := rfl
    rw [concatIov, hcons]
    split
    · next hzero => exact ⟨dst, rfl, by rw [hzero, take_zero, append_nil]⟩
    split
    · obtain ⟨q, hq, haddrs⟩ := concatIov_addrs src (dst.add (v.iovBase + 0) (min (v.iovLen - 0)
        sbytes)) (sbytes - min (v.iovLen - 0) sbytes)
      refine ⟨q, hq, ?_⟩
      rw [haddrs, addrs_add, append_assoc, take_append, length_range', take_range']
      congr 3
      omega
    · next hempty =>
      have hlen : v.iovLen = 0 := by omega
      obtain ⟨q, hq, haddrs⟩ := concatIov_addrs src dst sbytes
      refine ⟨q, ?_, ?_⟩
      · rw [hlen]
        exact hq
      · rw [haddrs, hlen]
        rfl

end QemuIoVector

/-! ## Requests -/

/-- `BlockRequest`, as far as merging reads it. -/
structure BlockRequest where
  sector : ℤ
  nbSectors : ℤ
  qiov : QemuIoVector

/-- `IOV_MAX`. -/
def iovMax : ℕ := 1024

namespace BlockRequest

/-- The callers pass whole sectors, as many as the vector has. -/
structure Wf (r : BlockRequest) : Prop where
  nonneg : 0 ≤ r.nbSectors
  lt : r.nbSectors < 2 ^ 31
  size : (r.qiov.size : ℤ) = 512 * r.nbSectors

/-- The sectors that a request writes. -/
def Writes (r : BlockRequest) (x : ℤ) : Prop := r.sector ≤ x ∧ x < r.sector + r.nbSectors

instance (r : BlockRequest) (x : ℤ) : Decidable (r.Writes x) := inferInstanceAs (Decidable (_ ∧ _))

/-- Where the bytes of a sector come from. -/
def sectorData (r : BlockRequest) (x : ℤ) : List ℕ :=
  (r.qiov.addrs.drop (512 * (x - r.sector).toNat)).take 512

/-- The test of `multiwrite_merge` for `r` after the request `out`. -/
def merges (out r : BlockRequest) : Bool :=
  r.sector ≤ out.sector + out.nbSectors && !(out.qiov.niov + r.qiov.niov + 1 > iovMax)

/-- The merged request. The number of its sectors is an `int`. -/
def merge (out r : BlockRequest) : Option BlockRequest := do
  let size := ((r.sector - out.sector) * 512 % 2 ^ 64).toNat
  let qiov ← QemuIoVector.init.concat out.qiov 0 size
  let qiov ← qiov.concat r.qiov 0 r.qiov.size
  some ⟨out.sector, Int.bmod (qiov.size / 512 : ℕ) (2 ^ 32), qiov⟩

end BlockRequest

open BlockRequest

/-- The loop of `multiwrite_merge` over the sorted requests; `finished` are the requests before
`out` in the array. -/
def mergeLoop (finished : List BlockRequest) (out : BlockRequest) :
    List BlockRequest → Option (List BlockRequest)
  | [] => some (finished ++ [out])
  | r :: reqs =>
    if out.merges r then (out.merge r).bind fun out => mergeLoop finished out reqs
    else mergeLoop (finished ++ [out]) r reqs

/-- `multiwrite_merge` after the sort. It is not called without requests. -/
def multiwriteMerge : List BlockRequest → Option (List BlockRequest)
  | [] => some []
  | r :: reqs => mergeLoop [] r reqs

/-! ## One merge -/

namespace BlockRequest

variable {out r : BlockRequest}

theorem bmod_le_self {n} (h : 0 ≤ n) : Int.bmod n (2 ^ 32) ≤ n := by
  rw [Int.bmod_def]
  split <;> omega

/-- The bytes of the merged request. -/
theorem merge_addrs (hwf : r.Wf) (hlen : 512 * out.nbSectors ≤ out.qiov.size)
    (hbound : out.nbSectors < 2 ^ 31) (hle : out.sector ≤ r.sector)
    (hlast : r.sector ≤ out.sector + out.nbSectors) :
    ∃ m, out.merge r = some m ∧ m.sector = out.sector ∧
      m.nbSectors = Int.bmod ((r.sector - out.sector) + r.nbSectors) (2 ^ 32) ∧
      m.qiov.addrs = out.qiov.addrs.take (512 * (r.sector - out.sector).toNat) ++ r.qiov.addrs := by
  obtain ⟨d, hd⟩ : ∃ d : ℕ, r.sector - out.sector = d := ⟨_, (Int.toNat_of_nonneg (by omega)).symm⟩
  have hsize : ((r.sector - out.sector) * 512 % 2 ^ 64).toNat = 512 * d := by
    omega
  obtain ⟨q₁, hq₁, h₁⟩ := concatIov_addrs out.qiov.iov .init (512 * d)
  obtain ⟨q₂, hq₂, h₂⟩ := concatIov_addrs r.qiov.iov q₁ r.qiov.size
  have htake : (iovAddrs r.qiov.iov).take r.qiov.size = r.qiov.addrs :=
    take_of_length_le r.qiov.length_addrs.le
  rw [htake, h₁] at h₂
  have haddrs : q₂.addrs = out.qiov.addrs.take (512 * d) ++ r.qiov.addrs := h₂
  have hq : (q₂.size : ℤ) = 512 * (d + r.nbSectors) := by
    have hlen₂ := congrArg length haddrs
    rw [length_append, length_take, length_addrs, length_addrs, length_addrs] at hlen₂
    have := hwf.size
    omega
  refine ⟨⟨out.sector, Int.bmod (q₂.size / 512 : ℕ) (2 ^ 32), q₂⟩, ?_, rfl, ?_, ?_⟩
  · rw [merge, hsize, QemuIoVector.concat, hq₁]
    dsimp only [Option.bind_eq_bind, Option.bind_some]
    rw [QemuIoVector.concat, hq₂]
    rfl
  · dsimp only
    congr 1
    omega
  · rw [hd]
    exact haddrs

/-- What holds of the request that the loop works on. -/
structure Bounded (out : BlockRequest) : Prop where
  len : 512 * out.nbSectors ≤ out.qiov.size
  lt : out.nbSectors < 2 ^ 31

theorem sectorData_of_lt {m : BlockRequest} {x : ℤ} {d : ℕ} {tail : List ℕ}
    (hsector : m.sector = out.sector)
    (haddrs : m.qiov.addrs = out.qiov.addrs.take (512 * d) ++ tail)
    (hd : 512 * d ≤ out.qiov.addrs.length) (hx : (x - out.sector).toNat < d) :
    m.sectorData x = out.sectorData x := by
  rw [sectorData, haddrs, hsector]
  have hlen : (out.qiov.addrs.take (512 * d)).length = 512 * d := length_take_of_le hd
  rw [drop_append_of_le_length (by omega), take_append_of_le_length (by
    rw [length_drop]
    omega), drop_take, take_take]
  congr 1
  omega

theorem sectorData_of_ge {m : BlockRequest} {x : ℤ} {d : ℕ} {head : List ℕ}
    (hsector : r.sector = m.sector + d) (haddrs : m.qiov.addrs = head ++ r.qiov.addrs)
    (hlen : head.length = 512 * d) (hx : r.sector ≤ x) : m.sectorData x = r.sectorData x := by
  rw [sectorData, haddrs, drop_append, drop_eq_nil_of_le (by omega), nil_append, hlen]
  congr 2
  omega

/-- The sectors of the two requests that the merge cuts off : those from the end of the second on,
with the length of the whole as an `int`. -/
def CutsOff (out r : BlockRequest) (x : ℤ) : Prop :=
  (out.Writes x ∨ r.Writes x) ∧
    out.sector + Int.bmod (r.sector - out.sector + r.nbSectors) (2 ^ 32) ≤ x

/-- Every sector of the merged request comes from one of the two, with its data, and only what is
cut off is missing. -/
theorem merge_spec (hwf : r.Wf) (hout : out.Bounded) (hle : out.sector ≤ r.sector)
    (hlast : r.sector ≤ out.sector + out.nbSectors) :
    ∃ m, out.merge r = some m ∧ m.sector = out.sector ∧ m.Bounded ∧
      (∀ x, out.CutsOff r x ↔ (out.Writes x ∨ r.Writes x) ∧ ¬m.Writes x) ∧
      ∀ x, m.Writes x → (out.Writes x ∧ m.sectorData x = out.sectorData x) ∨
        (r.Writes x ∧ m.sectorData x = r.sectorData x) := by
  obtain ⟨m, hm, hsector, hnb, haddrs⟩ := merge_addrs hwf hout.len hout.lt hle hlast
  have hcuts : ∀ x, out.CutsOff r x ↔ (out.Writes x ∨ r.Writes x) ∧ ¬m.Writes x := by
    intro x
    refine and_congr_right fun hx => ?_
    rw [← hnb, Writes, hsector, not_and, not_lt]
    refine ⟨fun h _ => h, fun h => h ?_⟩
    rcases hx with hx | hx
    · exact hx.1
    · exact hle.trans hx.1
  obtain ⟨d, hd⟩ : ∃ d : ℕ, r.sector - out.sector = d := ⟨_, (Int.toNat_of_nonneg (by omega)).symm⟩
  rw [hd] at hnb haddrs
  rw [Int.toNat_natCast] at haddrs
  have hcut : 512 * d ≤ out.qiov.addrs.length := by
    have := hout.len
    rw [length_addrs]
    omega
  have hlen : (out.qiov.addrs.take (512 * d)).length = 512 * d := length_take_of_le hcut
  have hnb_le : m.nbSectors ≤ d + r.nbSectors := by
    have := hwf.nonneg
    exact hnb ▸ bmod_le_self (by omega)
  refine ⟨m, hm, hsector, ⟨?_, ?_⟩, hcuts, fun x hx => ?_⟩
  · have hsize := congrArg length haddrs
    rw [length_append, length_addrs, length_addrs] at hsize
    have := hwf.size
    omega
  · have := Int.bmod_lt (x := d + r.nbSectors) (m := 2 ^ 32) (by decide)
    omega
  · rw [Writes, hsector] at hx
    by_cases hlt : x < r.sector
    · exact .inl ⟨⟨hx.1, by omega⟩, sectorData_of_lt hsector haddrs hcut (by omega)⟩
    · exact .inr ⟨⟨by omega, by omega⟩, sectorData_of_ge (by omega) haddrs hlen (by omega)⟩

end BlockRequest

/-! ## The whole array -/

/-- Some request writes the sector. -/
def Written (reqs : List BlockRequest) (x : ℤ) : Prop := ∃ r ∈ reqs, r.Writes x

@[simp] theorem written_cons (r : BlockRequest) (reqs : List BlockRequest) (x : ℤ) :
    Written (r :: reqs) x ↔ r.Writes x ∨ Written reqs x := by
  simp only [Written, mem_cons, exists_eq_or_imp]

@[simp] theorem written_append (reqs reqs' : List BlockRequest) (x : ℤ) :
    Written (reqs ++ reqs') x ↔ Written reqs x ∨ Written reqs' x := by
  simp only [Written, mem_append, or_and_right, exists_or]

/-- Every sector of `r` has the data of an original that covers it. -/
def Supplied (reqs : List BlockRequest) (r : BlockRequest) : Prop :=
  ∀ x, r.Writes x → ∃ o ∈ reqs, o.Writes x ∧ o.sectorData x = r.sectorData x

/-- The merged requests write the sectors of the originals, each with the data of an original that
covers it. -/
structure Preserves (reqs merged : List BlockRequest) : Prop where
  union : ∀ x, Written merged x ↔ Written reqs x
  data : ∀ r ∈ merged, Supplied reqs r

/-- Along the loop, a sector that a merge cuts off is in a request that is already out or in one
still to come. -/
def Recovered (finished : List BlockRequest) (out : BlockRequest) : List BlockRequest → Prop
  | [] => True
  | r :: reqs =>
    if out.merges r then
      (∀ x, out.CutsOff r x → Written (finished ++ reqs) x) ∧
        ∀ m, out.merge r = some m → Recovered finished m reqs
    else Recovered (finished ++ [out]) r reqs

/-- `Recovered` for the whole array. -/
def MergesRecovered : List BlockRequest → Prop
  | [] => True
  | r :: reqs => Recovered [] r reqs

section Loop

variable {reqs finished rest : List BlockRequest} {out r : BlockRequest}

/-- The state of the loop, with the requests `rest` still to come. -/
structure MergeInv (reqs finished : List BlockRequest) (out : BlockRequest)
    (rest : List BlockRequest) : Prop where
  supplied : ∀ r ∈ finished ++ [out], Supplied reqs r
  bounded : out.Bounded
  rest_wf : ∀ r ∈ rest, r ∈ reqs ∧ r.Wf
  le : ∀ r ∈ rest, out.sector ≤ r.sector
  sorted : rest.Pairwise fun r r' => r.sector ≤ r'.sector

theorem BlockRequest.Wf.bounded (h : r.Wf) : r.Bounded := ⟨h.size.ge, h.lt⟩

theorem supplied_self (h : r ∈ reqs) : Supplied reqs r := fun _ hx => ⟨r, h, hx, rfl⟩

theorem MergeInv.next (h : MergeInv reqs finished out (r :: rest)) :
    MergeInv reqs (finished ++ [out]) r rest where
  supplied := fun k hk => by
    rcases mem_append.1 hk with hk | hk
    · exact h.supplied k hk
    · obtain rfl := mem_singleton.1 hk
      exact supplied_self (h.rest_wf k mem_cons_self).1
  bounded := (h.rest_wf r mem_cons_self).2.bounded
  rest_wf := fun k hk => h.rest_wf k (mem_cons_of_mem r hk)
  le := (pairwise_cons.1 h.sorted).1
  sorted := (pairwise_cons.1 h.sorted).2

/-- A merge keeps the invariant, and writes nothing that the two requests did not write. -/
theorem MergeInv.merge (h : MergeInv reqs finished out (r :: rest)) (hmerge : out.merges r = true) :
    ∃ m, out.merge r = some m ∧ MergeInv reqs finished m rest ∧
      (∀ x, out.CutsOff r x ↔ (out.Writes x ∨ r.Writes x) ∧ ¬m.Writes x) ∧
      ∀ x, m.Writes x → out.Writes x ∨ r.Writes x := by
  have hlast : r.sector ≤ out.sector + out.nbSectors := by
    rw [merges, Bool.and_eq_true] at hmerge
    exact of_decide_eq_true hmerge.1
  obtain ⟨hmem, hwf⟩ := h.rest_wf r mem_cons_self
  obtain ⟨m, hm, hsector, hbounded, hcuts, hspec⟩ :=
    merge_spec hwf h.bounded (h.le r mem_cons_self) hlast
  have hsupplied : Supplied reqs m := by
    intro x hx
    rcases hspec x hx with ⟨hout, hdata⟩ | ⟨hr, hdata⟩
    · obtain ⟨o, ho, how, hodata⟩ := h.supplied out (by simp) x hout
      exact ⟨o, ho, how, hodata.trans hdata.symm⟩
    · exact ⟨r, hmem, hr, hdata.symm⟩
  refine ⟨m, hm, ⟨fun k hk => ?_, hbounded, h.next.rest_wf, fun k hk => ?_, h.next.sorted⟩,
    hcuts, fun x hx => (hspec x hx).imp And.left And.left⟩
  · rcases mem_append.1 hk with hk | hk
    · exact h.supplied k (mem_append_left _ hk)
    · obtain rfl := mem_singleton.1 hk
      exact hsupplied
  · rw [hsector]
    exact h.le k (mem_cons_of_mem r hk)

/-- The loop returns requests with the data of the originals, and keeps all sectors exactly when
what is cut off is recovered. -/
theorem mergeLoop_spec : ∀ rest finished out,
    MergeInv reqs finished out rest → ∃ merged, mergeLoop finished out rest = some merged ∧
      (∀ r ∈ merged, Supplied reqs r) ∧
      (∀ x, Written merged x → Written (finished ++ out :: rest) x) ∧
      ((∀ x, Written (finished ++ out :: rest) x → Written merged x) ↔ Recovered finished out rest)
  | [], finished, out, h =>
    ⟨finished ++ [out], rfl, h.supplied, fun _ hx => hx, iff_of_true (fun _ hx => hx) trivial⟩
  | r :: rest, finished, out, h => by
    rw [mergeLoop, Recovered]
    split_ifs with hmerge
    · obtain ⟨m, hm, hinv, hcuts, hsub⟩ := h.merge hmerge
      obtain ⟨merged, hloop, hdata, hwrites, hiff⟩ := mergeLoop_spec rest finished m hinv
      refine ⟨merged, by rw [hm]; exact hloop, hdata, fun x hx => ?_, ?_⟩
      · have hm := hwrites x hx
        have hor := hsub x
        simp only [written_append, written_cons] at hm ⊢
        tauto
      · rw [hm]
        constructor
        · intro hall
          refine ⟨fun x hx => ?_, fun m' hm' => ?_⟩
          · obtain ⟨hx, hlost⟩ := (hcuts x).1 hx
            have hcov := hwrites x (hall x (by simp only [written_append, written_cons]; tauto))
            simp only [written_append, written_cons] at hcov ⊢
            tauto
          · cases hm'
            refine hiff.1 fun x hx => hall x ?_
            have hor := hsub x
            simp only [written_append, written_cons] at hx ⊢
            tauto
        · rintro ⟨hlost, hrest⟩ x hx
          refine hiff.2 (hrest m rfl) x ?_
          have hcov := hlost x
          rw [hcuts x] at hcov
          simp only [written_append, written_cons] at hx hcov ⊢
          tauto
    · obtain ⟨merged, hloop, hdata, hwrites, hiff⟩ :=
        mergeLoop_spec rest (finished ++ [out]) r h.next
      rw [append_assoc] at hwrites hiff
      exact ⟨merged, hloop, hdata, hwrites, hiff⟩

end Loop

/-- However the sort orders requests that begin at the same sector, the merge returns, every sector
that it writes has the data of an original that covers it, and the sectors are those of the
originals exactly when each that a merge cuts off is covered by another request. -/
theorem multiwriteMerge_preserves_iff {reqs sorted : List BlockRequest} (hwf : ∀ r ∈ reqs, r.Wf)
    (hperm : sorted.Perm reqs) (hsorted : sorted.Pairwise fun r r' => r.sector ≤ r'.sector) :
    ∃ merged, multiwriteMerge sorted = some merged ∧ (∀ r ∈ merged, Supplied reqs r) ∧
      (Preserves reqs merged ↔ MergesRecovered sorted) := by
  have hcovered : ∀ x, Written sorted x ↔ Written reqs x := fun x => by
    simp only [Written, hperm.mem_iff]
  cases sorted with
  | nil =>
    refine ⟨[], rfl, fun r hr => absurd hr not_mem_nil, iff_of_true ⟨hcovered, ?_⟩ trivial⟩
    exact fun r hr => absurd hr not_mem_nil
  | cons r rest =>
    have hmem : ∀ k ∈ r :: rest, k ∈ reqs ∧ k.Wf := fun k hk =>
      ⟨hperm.mem_iff.1 hk, hwf k (hperm.mem_iff.1 hk)⟩
    have hinv : MergeInv reqs [] r rest :=
      { supplied := fun k hk => by
          obtain rfl := mem_singleton.1 hk
          exact supplied_self (hmem k mem_cons_self).1
        bounded := (hmem r mem_cons_self).2.bounded
        rest_wf := fun k hk => hmem k (mem_cons_of_mem r hk)
        le := (pairwise_cons.1 hsorted).1
        sorted := (pairwise_cons.1 hsorted).2 }
    obtain ⟨merged, hloop, hdata, hwrites, hiff⟩ := mergeLoop_spec rest [] r hinv
    refine ⟨merged, hloop, hdata, Iff.trans ⟨fun h x hx => ?_, fun h => ⟨fun x => ?_, hdata⟩⟩ hiff⟩
    · exact (h.union x).2 ((hcovered x).1 hx)
    · exact ⟨fun hx => (hcovered x).1 (hwrites x hx), fun hx => h x ((hcovered x).2 hx)⟩

/-- A request of `n` sectors from `sector` on, with one buffer. -/
def oneBuffer (sector : ℤ) (n base : ℕ) : BlockRequest :=
  ⟨sector, n, ⟨[⟨base, 512 * n⟩], 512 * n, rfl⟩⟩

theorem oneBuffer_wf {sector n base} (h : n < 2 ^ 31) : (oneBuffer sector n base).Wf where
  nonneg := Int.natCast_nonneg n
  lt := by
    have hn : (oneBuffer sector n base).nbSectors = n := rfl
    omega
  size := Nat.cast_mul 512 n

/-- Two adjacent sectors. -/
theorem multiwriteMerge_preserves_adjacent : ∃ merged,
    multiwriteMerge [oneBuffer 0 1 0, oneBuffer 1 1 4096] = some merged ∧
      Preserves [oneBuffer 0 1 0, oneBuffer 1 1 4096] merged := by
  have hwf : ∀ r ∈ [oneBuffer 0 1 0, oneBuffer 1 1 4096], r.Wf := by
    simp [oneBuffer_wf]
  obtain ⟨merged, hrun, -, hiff⟩ := multiwriteMerge_preserves_iff hwf (.refl _)
    (by simp [oneBuffer])
  refine ⟨merged, hrun, hiff.2 ⟨fun x hx => ?_, fun m _ => trivial⟩⟩
  have hend : Int.bmod (1 - 0 + (1 : ℕ)) (2 ^ 32) = 2 := by decide
  obtain ⟨hx, hle⟩ := hx
  simp only [Writes, oneBuffer, hend] at hx hle
  omega

/-- A write of one sector inside of a write of four cuts off the last two. -/
theorem multiwriteMerge_preserves_fail : ∃ merged,
    multiwriteMerge [oneBuffer 0 4 0, oneBuffer 1 1 4096] = some merged ∧
      ¬Preserves [oneBuffer 0 4 0, oneBuffer 1 1 4096] merged := by
  have hends : (multiwriteMerge [oneBuffer 0 4 0, oneBuffer 1 1 4096]).map (fun merged =>
      merged.map fun r => decide (r.Writes 3)) = some [false] := by decide +kernel
  obtain ⟨merged, hrun, hwrites⟩ := Option.map_eq_some_iff.1 hends
  refine ⟨merged, hrun, fun h => ?_⟩
  obtain ⟨r, hr, hrx⟩ := (h.union 3).2 ⟨oneBuffer 0 4 0, by simp, by decide⟩
  have hfalse := mem_map_of_mem (f := fun r : BlockRequest => decide (r.Writes 3)) hr
  rw [hwrites, mem_singleton, decide_eq_false_iff_not] at hfalse
  exact hfalse hrx

end QemuArm
