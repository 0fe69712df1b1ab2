import QemuArm.HBitmapRefine
import QemuArm.Reach

/-!
# Dirty bitmaps of a block device

`bdrv_aligned_pwritev`, `bdrv_co_discard`, `bdrv_set_dirty` and `bdrv_reset_dirty` of `block.c`.
A write sets the bits of its sectors in every bitmap of the device, whether or not it succeeds; a
discard resets them, before it looks whether discards are enabled. A consumer (`mirror.c`,
`block-migration.c`) resets the bits of sectors that it goes on to copy, and does so in the bitmaps
of the other consumers too. The contents of a sector are of an arbitrary type.

For each bitmap, `copied` has the contents of each sector when its consumer last reset the bit of
the sector. As long as discards touch nothing that is dirty and leave the contents as they are, and
a consumer resets nothing that is dirty for another one, every sector that has changed is dirty
(`dirtyBitmaps_cover`).
-/

namespace QemuArm

open List Option

variable {α : Type}

/-- `BdrvDirtyBitmap`. The contents when the bits were last reset, `copied`, are not part of the
program. -/
structure BdrvDirtyBitmap (α : Type) where
  bitmap : HBitmap
  copied : ℕ → α

open BdrvDirtyBitmap

/-- `ENOMEDIUM`, `EIO`, `EROFS` and `ENOTSUP`. -/
def enomedium : ℤ := 123

def eio : ℤ := 5

def erofs : ℤ := 30

def enotsup : ℤ := 95

/-- The discard function that a driver has. -/
inductive DiscardSupport
  | none
  | coDiscard
  | aioDiscard
deriving DecidableEq

/-- `BlockDriverState`, with the contents of its sectors. -/
structure DirtyBdrv (α : Type) where
  contents : ℕ → α
  totalSectors : ℕ
  dirtyBitmaps : List (BdrvDirtyBitmap α)
  inserted : Bool
  readOnly : Bool
  enableWriteCache : Bool
  /-- `BDRV_O_UNMAP` of the open flags. -/
  unmap : Bool
  discardSupport : DiscardSupport
  maxDiscard : ℕ
  discardAlignment : ℕ
  total_le : totalSectors ≤ 2 ^ 54

/-- What a driver answers, and the contents of the sectors of the request afterwards. -/
structure DriverResult (α : Type) where
  ret : ℤ
  data : ℕ → α

/-- `bdrv_get_dirty`. -/
def BdrvDirtyBitmap.getDirty (b : BdrvDirtyBitmap α) (sector : ℕ) : Bool :=
  hbitmapGet b.bitmap sector == some true

/-- The sectors whose bit stands for a sector of the request. -/
def BdrvDirtyBitmap.Touches (b : BdrvDirtyBitmap α) (sector nb x : ℕ) : Prop :=
  sector / 2 ^ b.bitmap.granularity ≤ x / 2 ^ b.bitmap.granularity ∧
    x / 2 ^ b.bitmap.granularity ≤ (sector + nb - 1) / 2 ^ b.bitmap.granularity

instance (b : BdrvDirtyBitmap α) (sector nb x : ℕ) : Decidable (b.Touches sector nb x) :=
  inferInstanceAs (Decidable (_ ∧ _))

/-! ## Setting and resetting -/

/-- A loop over the bitmaps of a device. -/
def forDirtyBitmaps (f : HBitmap → Option HBitmap) :
    List (BdrvDirtyBitmap α) → Option (List (BdrvDirtyBitmap α))
  | [] => some []
  | b :: bs => do
    let hb ← f b.bitmap
    let bs ← forDirtyBitmaps f bs
    some ({ b with bitmap := hb } :: bs)

variable (bs : DirtyBdrv α) (sector nb : ℕ)

/-- `bdrv_set_dirty`. -/
def bdrvSetDirty : Option (DirtyBdrv α) :=
  (forDirtyBitmaps (fun hb => hbitmapSet hb sector nb) bs.dirtyBitmaps).map fun l =>
    { bs with dirtyBitmaps := l }

/-- `bdrv_reset_dirty`. -/
def bdrvResetDirty : Option (DirtyBdrv α) :=
  (forDirtyBitmaps (fun hb => hbitmapReset hb sector nb) bs.dirtyBitmaps).map fun l =>
    { bs with dirtyBitmaps := l }

/-- `bdrv_create_dirty_bitmap`; the exponent of a power of two is `ffs` less one. -/
def bdrvCreateDirtyBitmap (bs : DirtyBdrv α) (granularity : ℕ) : Option (DirtyBdrv α) :=
  if granularity &&& (granularity - 1) ≠ 0 then none
  else if granularity / 512 = 0 then none
  else (hbitmapAlloc bs.totalSectors (granularity / 512).log2).map fun hb =>
    { bs with dirtyBitmaps := ⟨hb, bs.contents⟩ :: bs.dirtyBitmaps }

/-! ## Writes and discards -/

/-- The contents when the sectors of a request have those of `data`. -/
def overwrite (contents : ℕ → α) (sector nb : ℕ) (data : ℕ → α) : ℕ → α :=
  fun x => if sector ≤ x ∧ x < sector + nb then data x else contents x

/-- The end of `bdrv_aligned_pwritev`, when the write has answered `ret`. -/
def pwritevDone (ret flush : ℤ) : Option (DirtyBdrv α × ℤ) :=
  let ret := if ret = 0 ∧ !bs.enableWriteCache then flush else ret
  (bdrvSetDirty bs sector nb).map fun bs => (bs, ret)

/-- `bdrv_aligned_pwritev` : `notify` is the answer of the notifiers, `res` that of the driver to
the write or the write of zeroes, `flush` that of `bdrv_co_flush`. -/
def DirtyBdrv.bdrvAlignedPwritev (notify : ℤ)
    (res : DriverResult α) (flush : ℤ) : Option (DirtyBdrv α × ℤ) :=
  if notify < 0 then pwritevDone bs sector nb notify flush
  else
    pwritevDone { bs with contents := overwrite bs.contents sector nb res.data } sector nb res.ret
      flush

/-- `bdrv_check_request`, without a growable file. The offset is an `int64_t`. -/
def bdrvCheckRequest : Bool :=
  let offset : ℤ := Int.bmod (sector * 512) (2 ^ 64)
  let len : ℤ := bs.totalSectors * 512
  nb ≤ (2 ^ 31 - 1) / 512 && 0 ≤ offset && offset ≤ len && nb * 512 ≤ len - offset

/-- The number of sectors of one call of the driver. -/
def discardNum : ℕ :=
  let num :=
    if bs.discardAlignment ≠ 0 ∧ bs.discardAlignment ≤ nb ∧ sector % bs.discardAlignment ≠ 0 then
      min nb bs.discardAlignment - sector % bs.discardAlignment
    else nb
  min num (if bs.maxDiscard ≠ 0 then bs.maxDiscard else 32768)

/-- The loop of `bdrv_co_discard`. The asynchronous function is given all the rest of the request;
no control block is an answer `-EIO` that changes nothing. -/
def discardLoop (bs : DirtyBdrv α) (drv : ℕ → ℕ → DriverResult α) :
    ℕ → ℕ → ℕ → (ℕ → α) → (ℕ → α) × ℤ
  | 0, _, _, contents => (contents, 0)
  | fuel + 1, sector, nb, contents =>
    if nb = 0 then (contents, 0)
    else
      let num := discardNum bs sector nb
      let len := if bs.discardSupport = .coDiscard then num else nb
      let res := drv sector len
      let contents := overwrite contents sector len res.data
      if res.ret ≠ 0 ∧ res.ret ≠ -enotsup then (contents, res.ret)
      else discardLoop bs drv fuel (sector + num) (nb - num) contents

/-- `bdrv_co_discard`; every round takes a sector at least, so `nb` rounds are enough. -/
def bdrvCoDiscard (drv : ℕ → ℕ → DriverResult α) : Option (DirtyBdrv α × ℤ) :=
  if !bs.inserted then some (bs, -enomedium)
  else if !bdrvCheckRequest bs sector nb then some (bs, -eio)
  else if bs.readOnly then some (bs, -erofs)
  else (bdrvResetDirty bs sector nb).map fun bs =>
    if !bs.unmap then (bs, 0)
    else if bs.discardSupport = .none then (bs, 0)
    else
      let (contents, ret) := discardLoop bs drv nb sector nb bs.contents
      ({ bs with contents := contents }, ret)

theorem discardNum_pos (bs : DirtyBdrv α) {sector nb} (h : nb ≠ 0) :
    0 < discardNum bs sector nb := by
  have hmax : 0 < if bs.maxDiscard ≠ 0 then bs.maxDiscard else 32768 := by
    split <;> omega
  refine lt_min ?_ hmax
  split
  · next halign =>
    have := Nat.mod_lt sector (pos_of_ne_zero halign.1)
    omega
  · omega

/-- With a round for each sector the loop comes to its end. -/
theorem discardLoop_fuel (bs : DirtyBdrv α) (drv : ℕ → ℕ → DriverResult α) :
    ∀ fuel sector nb contents, nb ≤ fuel →
      discardLoop bs drv fuel sector nb contents = discardLoop bs drv nb sector nb contents
  | 0, _, nb, _, h => by
    obtain rfl : nb = 0 := by omega
    rfl
  | fuel + 1, sector, 0, contents, _ => by
    simp [discardLoop]
  | fuel + 1, sector, nb + 1, contents, h => by
    have hpos : 0 < discardNum bs sector (nb + 1) := discardNum_pos bs (Nat.succ_ne_zero nb)
    rw [discardLoop, discardLoop, if_neg (Nat.succ_ne_zero nb), if_neg (Nat.succ_ne_zero nb)]
    dsimp only
    rw [discardLoop_fuel bs drv fuel _ (nb + 1 - discardNum bs sector (nb + 1)) _ (by omega),
      discardLoop_fuel bs drv nb _ (nb + 1 - discardNum bs sector (nb + 1)) _ (by omega)]

/-- A driver that leaves the sectors of the request as they are. -/
def DriverResult.Keeps (drv : ℕ → ℕ → DriverResult α) (contents : ℕ → α) (sector nb : ℕ) : Prop :=
  ∀ s n x, sector ≤ s → s + n ≤ sector + nb → s ≤ x → x < s + n → (drv s n).data x = contents x

theorem discardLoop_keeps (bs : DirtyBdrv α) {drv : ℕ → ℕ → DriverResult α} {contents : ℕ → α} :
    ∀ fuel sector nb, DriverResult.Keeps drv contents sector nb →
      (discardLoop bs drv fuel sector nb contents).1 = contents
  | 0, _, _, _ => rfl
  | fuel + 1, sector, nb, h => by
    rw [discardLoop]
    split
    · rfl
    next hnb =>
    have hnum : discardNum bs sector nb ≤ nb := by
      refine (min_le_left _ _).trans ?_
      split <;> omega
    have hlen : (if bs.discardSupport = .coDiscard then discardNum bs sector nb else nb) ≤ nb := by
      split <;> omega
    dsimp only
    generalize (if bs.discardSupport = .coDiscard then discardNum bs sector nb else nb) = len
      at hlen ⊢
    -- the call writes what is there
    have hsame : overwrite contents sector len (drv sector len).data = contents := by
      funext x
      rw [overwrite]
      split
      · next hx => exact h sector len x le_rfl (by omega) hx.1 hx.2
      · rfl
    rw [hsame]
    split
    · rfl
    · exact discardLoop_keeps bs fuel _ _ fun s n x hs hn => h s n x (by omega) (by omega)

theorem discardLoop_dirtyBitmaps (bs : DirtyBdrv α) (l : List (BdrvDirtyBitmap α))
    (drv : ℕ → ℕ → DriverResult α) : ∀ fuel sector nb contents,
      discardLoop { bs with dirtyBitmaps := l } drv fuel sector nb contents =
        discardLoop bs drv fuel sector nb contents
  | 0, _, _, _ => rfl
  | fuel + 1, sector, nb, contents => by
    rw [discardLoop]
    dsimp only
    rw [discardLoop_dirtyBitmaps bs l drv fuel]
    rfl

/-! ## Runs -/

/-- What happens on a device : the requests of the guest, and those who keep track of it. -/
inductive DirtyOp (α : Type)
  | write (sector nb : ℕ) (notify : ℤ) (res : DriverResult α) (flush : ℤ)
  | discard (sector nb : ℕ) (drv : ℕ → ℕ → DriverResult α)
  | setDirty (sector nb : ℕ)
  /-- The consumer of bitmap `i` resets the bits and copies the sectors. -/
  | copy (i sector nb : ℕ)
  | create (granularity : ℕ)
  | release (i : ℕ)

/-- The requests of the guest. -/
def DirtyOp.guest : DirtyOp α → Bool
  | .write .. | .discard .. => true
  | _ => false

/-- A bitmap whose consumer has reset the bits of a request. -/
def BdrvDirtyBitmap.copy (b : BdrvDirtyBitmap α) (contents : ℕ → α) (sector nb : ℕ) :
    BdrvDirtyBitmap α :=
  { b with copied := fun x => if b.Touches sector nb x then contents x else b.copied x }

def dirtyStep : DirtyOp α → DirtyBdrv α → Option (DirtyBdrv α)
  | .write sector nb notify res flush, bs =>
    (bs.bdrvAlignedPwritev sector nb notify res flush).map Prod.fst
  | .discard sector nb drv, bs => (bdrvCoDiscard bs sector nb drv).map Prod.fst
  | .setDirty sector nb, bs => bdrvSetDirty bs sector nb
  | .copy i sector nb, bs => (bdrvResetDirty bs sector nb).map fun bs =>
    { bs with dirtyBitmaps := bs.dirtyBitmaps.modify i fun b => b.copy bs.contents sector nb }
  | .create granularity, bs => bdrvCreateDirtyBitmap bs granularity
  | .release i, bs => some { bs with dirtyBitmaps := bs.dirtyBitmaps.eraseIdx i }

/-- Every sector that has changed since the consumer last reset its bit is dirty. -/
def DirtySafe (bs : DirtyBdrv α) : Prop :=
  ∀ b ∈ bs.dirtyBitmaps, ∀ x < bs.totalSectors, bs.contents x ≠ b.copied x → b.getDirty x = true

/-- No bit of a sector that has its contents as before is lost. -/
def KeepsDirty (bs bs' : DirtyBdrv α) : Prop :=
  ∀ (j : ℕ) (b b' : BdrvDirtyBitmap α),
    bs.dirtyBitmaps[j]? = some b → bs'.dirtyBitmaps[j]? = some b' →
    ∀ x < bs.totalSectors, b.getDirty x = true → bs'.contents x = bs.contents x →
      b'.getDirty x = true

/-- A request for some sectors of the device. -/
def InDevice : Prop := 1 ≤ nb ∧ sector + nb ≤ bs.totalSectors

/-- Requests are not empty and stay in the device. A discard that is not refused, with bitmaps,
touches nothing that is dirty and the driver leaves the contents as they are; a consumer resets
nothing that is dirty for another one. -/
def DirtyOk (bs : DirtyBdrv α) : DirtyOp α → Prop
  | .write sector nb .. => InDevice bs sector nb
  | .discard sector nb drv =>
    (bs.inserted = true ∧ bdrvCheckRequest bs sector nb = true ∧ bs.readOnly = false) →
      bs.dirtyBitmaps ≠ [] →
      InDevice bs sector nb ∧
      (∀ b ∈ bs.dirtyBitmaps, ∀ x < bs.totalSectors, b.Touches sector nb x → b.getDirty x = false) ∧
      (bs.unmap = false ∨ bs.discardSupport = .none ∨
        DriverResult.Keeps drv bs.contents sector nb)
  | .setDirty sector nb => InDevice bs sector nb
  | .copy i sector nb => InDevice bs sector nb ∧
    ∀ (j : ℕ) (b : BdrvDirtyBitmap α), j ≠ i → bs.dirtyBitmaps[j]? = some b →
      ∀ x < bs.totalSectors, b.Touches sector nb x → b.getDirty x = false
  | .create _ | .release _ => True

/-! ## The invariant -/

section Invariant

variable {bs bs' : DirtyBdrv α} {sector nb : ℕ}

/-- A bitmap that has a bit for every sector below `total`. -/
structure HBitmap.Fits (total : ℕ) (hb : HBitmap) : Prop where
  wf : hb.WF
  fits : ∀ x < total, x / 2 ^ hb.granularity < hb.size

namespace BdrvDirtyBitmap

variable {b b' : BdrvDirtyBitmap α} {total x : ℕ}

theorem getDirty_eq (h : b.bitmap.Fits total) (hx : x < total) :
    b.getDirty x = b.bitmap.bit 6 (x / 2 ^ b.bitmap.granularity) := by
  rw [getDirty, hbitmapGet_spec h.wf (h.fits x hx)]
  cases b.bitmap.bit 6 (x / 2 ^ b.bitmap.granularity) <;> rfl

/-- The sectors whose bit the request touches are dirty or clean after the operation `r`. -/
theorem getDirty_wrote (h : b.bitmap.Fits total) {v r} (hr : r = some b'.bitmap)
    (hspec : ∃ hb, r = some hb ∧ b.bitmap.Wrote v (sector / 2 ^ b.bitmap.granularity)
      ((sector + nb - 1) / 2 ^ b.bitmap.granularity) hb) :
    b'.bitmap.Fits total ∧ b'.bitmap.granularity = b.bitmap.granularity ∧
      ∀ x < total, b'.getDirty x = if b.Touches sector nb x then v else b.getDirty x := by
  obtain ⟨hb, hr', hwrote⟩ := hspec
  obtain rfl := some.inj (hr'.symm.trans hr)
  have hfits : b'.bitmap.Fits total :=
    ⟨hwrote.wf, by rw [hwrote.size, hwrote.granularity]; exact h.fits⟩
  refine ⟨hfits, hwrote.granularity, fun x hx => ?_⟩
  rw [getDirty_eq hfits hx, getDirty_eq h hx, hwrote.granularity, hwrote.bits]
  rfl

section

variable (h : b.bitmap.Fits total) (htotal : total ≤ 2 ^ 54) (h1 : 1 ≤ nb)
  (hin : sector + nb ≤ total)
include h htotal h1 hin

theorem getDirty_set (hset : hbitmapSet b.bitmap sector nb = some b'.bitmap) :
    b'.bitmap.Fits total ∧ b'.bitmap.granularity = b.bitmap.granularity ∧
      ∀ x < total, b'.getDirty x = if b.Touches sector nb x then true else b.getDirty x :=
  getDirty_wrote h hset (hbitmapSet_spec h.wf h1 (by omega) (h.fits (sector + nb - 1) (by omega)))

theorem getDirty_reset (hreset : hbitmapReset b.bitmap sector nb = some b'.bitmap) :
    b'.bitmap.Fits total ∧ b'.bitmap.granularity = b.bitmap.granularity ∧
      ∀ x < total, b'.getDirty x = if b.Touches sector nb x then false else b.getDirty x :=
  getDirty_wrote h hreset
    (hbitmapReset_spec h.wf h1 (by omega) (h.fits (sector + nb - 1) (by omega)))

end

end BdrvDirtyBitmap

theorem forDirtyBitmaps_getElem? {f} :
    ∀ {l l' : List (BdrvDirtyBitmap α)} {j : ℕ} {b' : BdrvDirtyBitmap α},
      forDirtyBitmaps f l = some l' → l'[j]? = some b' →
      ∃ b, l[j]? = some b ∧ f b.bitmap = some b'.bitmap ∧ b'.copied = b.copied
  | [], l', j, b', h, hj => by
    cases h
    cases hj
  | b :: l, l', j, b', h, hj => by
    obtain ⟨hb, hhb, h⟩ := bind_eq_some_iff.1 h
    obtain ⟨l₁, hl₁, h⟩ := bind_eq_some_iff.1 h
    cases h
    cases j with
    | zero =>
      cases hj
      exact ⟨b, rfl, hhb, rfl⟩
    | succ j =>
      obtain ⟨b₀, hb₀, hf⟩ := forDirtyBitmaps_getElem? (j := j) hl₁ hj
      exact ⟨b₀, hb₀, hf⟩

/-- What holds of each bitmap. -/
structure BitmapOk (bs : DirtyBdrv α) (b : BdrvDirtyBitmap α) : Prop where
  fits : b.bitmap.Fits bs.totalSectors
  safe : ∀ x < bs.totalSectors, bs.contents x ≠ b.copied x → b.getDirty x = true

def DirtyInv (bs : DirtyBdrv α) : Prop :=
  ∀ (j : ℕ) (b : BdrvDirtyBitmap α), bs.dirtyBitmaps[j]? = some b → BitmapOk bs b

theorem DirtyInv.safe (h : DirtyInv bs) : DirtySafe bs := by
  intro b hb
  obtain ⟨j, hj⟩ := mem_iff_getElem?.1 hb
  exact (h j b hj).safe

/-- Changed sectors become dirty, and no bit is lost. -/
theorem DirtyInv.setDirty (h : DirtyInv bs) (hin : InDevice bs sector nb) {data}
    (hset : bdrvSetDirty { bs with contents := overwrite bs.contents sector nb data } sector nb =
      some bs') : DirtyInv bs' ∧ KeepsDirty bs bs' := by
  obtain ⟨l, hl, rfl⟩ := map_eq_some_iff.1 hset
  refine ⟨fun j b' hj => ?_, fun j b b' hj hj' x hx hdirty _ => ?_⟩
  · obtain ⟨b, hb, hset, hcopied⟩ := forDirtyBitmaps_getElem? hl hj
    obtain ⟨hfits, -, hdirty⟩ :=
      getDirty_set (h j b hb).fits bs.total_le hin.1 hin.2 hset
    refine ⟨hfits, fun x hx hne => ?_⟩
    rw [hdirty x hx]
    split_ifs with htouch
    · rfl
    · refine (h j b hb).safe x hx ?_
      dsimp only [overwrite] at hne
      rwa [if_neg fun hx' => htouch ⟨Nat.div_le_div_right hx'.1, Nat.div_le_div_right (by omega)⟩,
        hcopied] at hne
  · obtain ⟨b₀, hb₀, hset, -⟩ := forDirtyBitmaps_getElem? hl hj'
    obtain rfl := some.inj (hj.symm.trans hb₀)
    rw [(getDirty_set (h j b hj).fits bs.total_le hin.1 hin.2 hset).2.2 x hx, hdirty, ite_self]

/-- A reset of bits that are clear leaves every bitmap as it was. -/
theorem BitmapOk.reset_clean {b b' : BdrvDirtyBitmap α} (h : BitmapOk bs b)
    (hin : InDevice bs sector nb)
    (hclean : ∀ x < bs.totalSectors, b.Touches sector nb x → b.getDirty x = false)
    (hreset : hbitmapReset b.bitmap sector nb = some b'.bitmap) :
    b'.bitmap.Fits bs.totalSectors ∧ ∀ x < bs.totalSectors, b'.getDirty x = b.getDirty x := by
  obtain ⟨hfits, -, hdirty⟩ :=
    getDirty_reset h.fits bs.total_le hin.1 hin.2 hreset
  refine ⟨hfits, fun x hx => ?_⟩
  rw [hdirty x hx]
  split_ifs with htouch
  · exact (hclean x hx htouch).symm
  · rfl

section

variable (h : DirtyInv bs) (hin : InDevice bs sector nb)
include h hin

theorem DirtyInv.resetClean
    (hclean : ∀ b ∈ bs.dirtyBitmaps, ∀ x < bs.totalSectors, b.Touches sector nb x →
      b.getDirty x = false) (hreset : bdrvResetDirty bs sector nb = some bs') :
    DirtyInv bs' ∧ KeepsDirty bs bs' := by
  obtain ⟨l, hl, rfl⟩ := map_eq_some_iff.1 hreset
  have hsame : ∀ (j : ℕ) (b' : BdrvDirtyBitmap α), l[j]? = some b' →
      ∃ b, bs.dirtyBitmaps[j]? = some b ∧ b'.copied = b.copied ∧
        b'.bitmap.Fits bs.totalSectors ∧ ∀ x < bs.totalSectors, b'.getDirty x = b.getDirty x := by
    intro j b' hj
    obtain ⟨b, hb, hreset, hcopied⟩ := forDirtyBitmaps_getElem? hl hj
    exact ⟨b, hb, hcopied, (h j b hb).reset_clean hin (hclean b (mem_of_getElem? hb)) hreset⟩
  refine ⟨fun j b' hj => ?_, fun j b b' hj hj' x hx hdirty _ => ?_⟩
  · obtain ⟨b, hb, hcopied, hfits, hdirty⟩ := hsame j b' hj
    refine ⟨hfits, fun x hx hne => ?_⟩
    rw [hdirty x hx]
    exact (h j b hb).safe x hx (hcopied ▸ hne)
  · obtain ⟨b₀, hb₀, -, -, hsame⟩ := hsame j b' hj'
    obtain rfl := some.inj (hj.symm.trans hb₀)
    rw [hsame x hx, hdirty]

/-! ## Steps -/

theorem DirtyInv.setDirty_same
    (hset : bdrvSetDirty bs sector nb = some bs') : DirtyInv bs' ∧ KeepsDirty bs bs' := by
  have hid : overwrite bs.contents sector nb bs.contents = bs.contents := by
    funext x
    simp [overwrite]
  have hset' : bdrvSetDirty { bs with contents := overwrite bs.contents sector nb bs.contents }
      sector nb = some bs' := by
    rw [hid]
    exact hset
  exact h.setDirty hin hset'

theorem DirtyInv.write {notify flush res} {r}
    (hs : bs.bdrvAlignedPwritev sector nb notify res flush = some r) :
    DirtyInv r.1 ∧ KeepsDirty bs r.1 := by
  unfold DirtyBdrv.bdrvAlignedPwritev at hs
  split at hs
  · obtain ⟨bs', hset, rfl⟩ := map_eq_some_iff.1 hs
    exact h.setDirty_same hin hset
  · obtain ⟨bs', hset, rfl⟩ := map_eq_some_iff.1 hs
    exact h.setDirty hin hset

end

theorem KeepsDirty.refl (bs : DirtyBdrv α) : KeepsDirty bs bs := by
  intro j b b' hj hj' x _ hdirty _
  obtain rfl := some.inj (hj.symm.trans hj')
  exact hdirty

section

variable (h : DirtyInv bs)
include h

/-- A discard as `DirtyOk` allows it. -/
theorem DirtyInv.discard {drv} (hok : DirtyOk bs (.discard sector nb drv))
    {r} (hs : bdrvCoDiscard bs sector nb drv = some r) : DirtyInv r.1 ∧ KeepsDirty bs r.1 := by
  unfold bdrvCoDiscard at hs
  split at hs
  · cases hs
    exact ⟨h, .refl bs⟩
  split at hs
  · cases hs
    exact ⟨h, .refl bs⟩
  split at hs
  · cases hs
    exact ⟨h, .refl bs⟩
  next hinserted hcheck hro =>
  obtain ⟨bs₁, hreset, rfl⟩ := map_eq_some_iff.1 hs
  by_cases hnil : bs.dirtyBitmaps = []
  · obtain ⟨l, hl, rfl⟩ := map_eq_some_iff.1 hreset
    rw [hnil] at hl
    cases hl
    refine ⟨fun j b' hj => ?_, fun j b b' hj => ?_⟩
    · split at hj
      · cases hj
      · split at hj <;> cases hj
    · rw [hnil] at hj
      cases hj
  obtain ⟨hin, hclean, hsame⟩ := hok ⟨by simpa using hinserted, by simpa using hcheck,
    by simpa using hro⟩ hnil
  have hkept := h.resetClean hin hclean hreset
  -- the contents are those from before, whichever way the function returns
  split
  · exact hkept
  split
  · exact hkept
  next hunmap hsupport =>
  obtain ⟨l, -, rfl⟩ := map_eq_some_iff.1 hreset
  rcases hsame with hsame | hsame | hsame
  · exact absurd hsame (by simpa using hunmap)
  · exact absurd hsame hsupport
  · have hcontents : (discardLoop { bs with dirtyBitmaps := l } drv nb sector nb bs.contents).1 =
        bs.contents := by
      rw [discardLoop_dirtyBitmaps, discardLoop_keeps bs nb sector nb hsame]
    dsimp only at hkept ⊢
    rw [hcontents]
    exact hkept

theorem DirtyInv.copy {i : ℕ} (hok : DirtyOk bs (.copy i sector nb))
    (hs : dirtyStep (.copy i sector nb) bs = some bs') : DirtyInv bs' := by
  obtain ⟨bs₁, hreset, rfl⟩ := map_eq_some_iff.1 hs
  obtain ⟨l, hl, rfl⟩ := map_eq_some_iff.1 hreset
  obtain ⟨hin, hclean⟩ := hok
  intro j b₂ hj
  rw [getElem?_modify] at hj
  obtain ⟨b', hj', rfl⟩ := map_eq_some_iff.1 hj
  obtain ⟨b, hb, hr, hcopied⟩ := forDirtyBitmaps_getElem? hl hj'
  split_ifs with hij
  · obtain ⟨hfits, hgran, hdirty⟩ :=
      getDirty_reset (h j b hb).fits bs.total_le hin.1 hin.2 hr
    refine ⟨hfits, fun x hx hne => ?_⟩
    have htouch : ¬b'.Touches sector nb x := fun ht => hne (if_pos ht).symm
    have hkeep : b'.getDirty x = true := by
      rw [hdirty x hx, (h j b hb).safe x hx, if_neg]
      · rwa [Touches, hgran] at htouch
      · rw [← hcopied]
        exact fun heq => hne (heq.trans (if_neg htouch).symm)
    exact hkeep
  · obtain ⟨hfits, hdirty⟩ :=
      (h j b hb).reset_clean hin (hclean j b (Ne.symm hij) hb) hr
    refine ⟨hfits, fun x hx hne => ?_⟩
    exact (hdirty x hx).trans ((h j b hb).safe x hx (hcopied ▸ hne))

theorem DirtyInv.create {granularity} (hs : bdrvCreateDirtyBitmap bs granularity = some bs') :
    DirtyInv bs' := by
  unfold bdrvCreateDirtyBitmap at hs
  split at hs
  · cases hs
  split at hs
  · cases hs
  obtain ⟨hb, halloc, rfl⟩ := map_eq_some_iff.1 hs
  intro j b hj
  cases j with
  | zero =>
    cases hj
    obtain ⟨hlt, hsize, hgran, hwf, -⟩ := hbitmapAlloc_spec halloc
    refine ⟨⟨hwf, fun x hx => ?_⟩, fun x _ hne => absurd rfl hne⟩
    have hle : 2 ^ (granularity / 512).log2 ≤ 2 ^ 63 := Nat.pow_le_pow_right (by decide) (by omega)
    have htotal := bs.total_le
    dsimp only at hx
    rw [hgran, hsize, groupsOf_eq (by omega) (by omega), Nat.lt_succ_iff]
    exact Nat.div_le_div_right (by omega)
  | succ j =>
    obtain ⟨hfits, hsafe⟩ := h j b hj
    exact ⟨hfits, hsafe⟩

theorem DirtyInv.release (i : ℕ) :
    DirtyInv { bs with dirtyBitmaps := bs.dirtyBitmaps.eraseIdx i } := by
  intro j b hj
  rw [getElem?_eraseIdx] at hj
  split at hj
  · obtain ⟨hfits, hsafe⟩ := h j b hj
    exact ⟨hfits, hsafe⟩
  · obtain ⟨hfits, hsafe⟩ := h (j + 1) b hj
    exact ⟨hfits, hsafe⟩

/-- A step keeps the invariant, and a request of the guest loses no bit. -/
theorem DirtyInv.step {op} (hok : DirtyOk bs op) (hs : dirtyStep op bs = some bs') :
    DirtyInv bs' ∧ (op.guest = true → KeepsDirty bs bs') := by
  cases op with
  | write sector nb notify res flush =>
    obtain ⟨r, hr, rfl⟩ := map_eq_some_iff.1 hs
    exact (h.write hok hr).imp id fun hk _ => hk
  | discard sector nb drv =>
    obtain ⟨r, hr, rfl⟩ := map_eq_some_iff.1 hs
    exact (h.discard hok hr).imp id fun hk _ => hk
  | setDirty sector nb =>
    exact ⟨(h.setDirty_same hok hs).1, fun hguest => by cases hguest⟩
  | copy i sector nb => exact ⟨h.copy hok hs, fun hguest => by cases hguest⟩
  | create granularity => exact ⟨h.create hs, fun hguest => by cases hguest⟩
  | release i =>
    cases hs
    exact ⟨h.release i, fun hguest => by cases hguest⟩

end

end Invariant

/-- From a device without bitmaps, in every state reached each sector that has changed since its
bit was last reset by the consumer is dirty, and the next request of the guest clears no bit of a
sector that it leaves in place. -/
theorem dirtyBitmaps_cover {bs₀ bs : DirtyBdrv α} (h₀ : bs₀.dirtyBitmaps = [])
    (h : Reach dirtyStep DirtyOk bs₀ bs) :
    DirtySafe bs ∧ ∀ op bs', op.guest = true → DirtyOk bs op → dirtyStep op bs = some bs' →
      KeepsDirty bs bs' := by
  have hempty : DirtyInv bs₀ := by
    intro j b hj
    rw [h₀] at hj
    cases hj
  have hinv : DirtyInv bs := h.invariant hempty fun _ _ _ hinv hok hs => (hinv.step hok hs).1
  exact ⟨hinv.safe, fun op bs' hguest hok hs => (hinv.step hok hs).2 hguest⟩

/-- A device of one sector. -/
def oneSector : DirtyBdrv ℕ where
  contents := fun _ => 0
  totalSectors := 1
  dirtyBitmaps := []
  inserted := true
  readOnly := false
  enableWriteCache := true
  unmap := false
  discardSupport := .none
  maxDiscard := 0
  discardAlignment := 0
  total_le := by decide

/-- The bitmap is made and the sector is written. -/
def writeOne : List (DirtyOp ℕ) := [.create 512, .write 0 1 0 ⟨0, fun _ => 1⟩ 0]

/-- A write leaves the sector changed, and so dirty. -/
theorem dirtyBitmaps_cover_write : ∃ bs : DirtyBdrv ℕ, DirtySafe bs ∧
    ∃ b ∈ bs.dirtyBitmaps, bs.contents 0 ≠ b.copied 0 := by
  have hrun : (writeOne.foldlM (fun s op => dirtyStep op s) oneSector).map (fun bs =>
      bs.dirtyBitmaps.any fun b => bs.contents 0 ≠ b.copied 0) = some true := by decide +kernel
  obtain ⟨bs, hbs, hany⟩ := map_eq_some_iff.1 hrun
  rw [writeOne, foldlM_cons, bind_eq_bind, bind_eq_some_iff] at hbs
  obtain ⟨bs₁, hcreate, hbs⟩ := hbs
  rw [foldlM_cons, bind_eq_bind, bind_eq_some_iff] at hbs
  obtain ⟨bs₂, hwrite, hbs⟩ := hbs
  obtain rfl := some.inj hbs
  have htotal : bs₁.totalSectors = 1 := by
    rw [dirtyStep, bdrvCreateDirtyBitmap, if_neg (by decide), if_neg (by decide)] at hcreate
    obtain ⟨hb, -, rfl⟩ := map_eq_some_iff.1 hcreate
    rfl
  have hin : InDevice bs₁ 0 1 := ⟨le_rfl, by rw [htotal]⟩
  have hreach : Reach dirtyStep DirtyOk oneSector bs₂ :=
    (Reach.refl.tail (i := .create 512) trivial hcreate).tail (i := .write ..) hin hwrite
  obtain ⟨b, hb, hne⟩ := any_eq_true.1 hany
  exact ⟨bs₂, (dirtyBitmaps_cover rfl hreach).1, b, hb, of_decide_eq_true hne⟩

/-- A write, and then a discard that the device is not open for : the bit is gone, and what was
written is still there. -/
theorem dirtyBitmaps_cover_fail : ∃ bs : DirtyBdrv ℕ,
    Reach dirtyStep (fun _ _ => True) oneSector bs ∧ ¬DirtySafe bs := by
  have hrun : ((writeOne ++ [DirtyOp.discard 0 1 fun _ _ => ⟨0, fun _ => 0⟩]).foldlM
      (fun s op => dirtyStep op s) oneSector).map (fun bs : DirtyBdrv ℕ =>
        decide (bs.totalSectors = 1) &&
          bs.dirtyBitmaps.any fun b => bs.contents 0 ≠ b.copied 0 && !b.getDirty 0) =
      some true := by decide +kernel
  obtain ⟨bs, hbs, htrue⟩ := map_eq_some_iff.1 hrun
  obtain ⟨htotal, hany⟩ := Bool.and_eq_true_iff.1 htrue
  obtain ⟨b, hb, hlost⟩ := any_eq_true.1 hany
  obtain ⟨hne, hclean⟩ := Bool.and_eq_true_iff.1 hlost
  refine ⟨bs, Reach.foldlM _ (fun _ _ _ => trivial) .refl hbs, fun hsafe => ?_⟩
  have hdirty := hsafe b hb 0 (by rw [of_decide_eq_true htotal]; decide) (of_decide_eq_true hne)
  rw [hdirty] at hclean
  cases hclean

end QemuArm
