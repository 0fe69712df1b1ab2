import QemuArm.Word

/-!
# Hierarchical bitmaps

`util/hbitmap.c` and `include/qemu/hbitmap.h` on a 64-bit host : `BITS_PER_LONG` is 64,
`BITS_PER_LEVEL` is 6 and `HBITMAP_LEVELS` is 7. A bitmap is seven arrays of words; in
every level but the last, bit `N` says whether word `N` of the next level is nonzero,
and level 0 has a sentinel in its top bit.

Positions are natural numbers; `uint64_t` arithmetic that can wrap is reduced modulo
`2 ^ 64`. A failed `assert` and an access outside an array are `none`. An iterator does
not hold its bitmap : the functions on iterators take the bitmap they read, since
setting and resetting bits between two calls is allowed.
-/

open Word

namespace QemuArm

/-- `HBITMAP_LOG_MAX_SIZE`. -/
def hbitmapLogMaxSize : ℕ := 41

/-- `HBITMAP_LEVELS`. -/
def hbitmapLevels : ℕ := hbitmapLogMaxSize / 6 + 1

/-- `struct HBitmap`. -/
structure HBitmap where
  /-- Number of total bits in the bottom level. -/
  size : ℕ
  /-- Number of set bits in the bottom level. -/
  count : ℕ
  /-- Each bit stands for a group of `2 ^ granularity` elements. -/
  granularity : ℕ
  /-- Level 0 is the coarsest, level 6 the bitmap itself. -/
  levels : ℕ → List Word

variable (hb : HBitmap)

/-- `hb` with the words of one level replaced. -/
def HBitmap.setLevel (level : ℕ) (words : List Word) : HBitmap :=
  { hb with levels := Function.update hb.levels level words }

/-- `struct HBitmapIter`, without the pointer to the bitmap. -/
structure HBitmapIter where
  granularity : ℕ
  /-- Entry offset into the last-level array of words. -/
  pos : ℕ
  /-- For each level, the bits yet to be processed under the current word. -/
  cur : ℕ → Word

/-! ## Iteration -/

/-- The first loop of `hbitmap_iter_skip_words`, before the decrement of `i` : climb to a
level with bits left. Running off level 0 would read `cur[-1]`. -/
def skipUp (hbi : HBitmapIter) : ℕ → ℕ → Option (ℕ × Word × ℕ)
  | 0, _ => none
  | i + 1, pos =>
    if hbi.cur i = 0#64 then skipUp hbi i (pos / 64) else some (i, hbi.cur i, pos / 64)

/-- The second loop of `hbitmap_iter_skip_words`, with the number of levels still to
descend : follow the lowest set bit of each word down to the last level. -/
def skipDown (hb : HBitmap) : ℕ → ℕ → Word → ℕ → HBitmapIter → Option (HBitmapIter × Word)
  | 0, _, cur, pos, hbi => if cur = 0#64 then none else some ({ hbi with pos := pos }, cur)
  | n + 1, i, cur, pos, hbi =>
    if cur = 0#64 then none
    else do
      let pos := pos * 64 + ctzl cur
      let hbi := { hbi with cur := Function.update hbi.cur i (cur &&& (cur - 1#64)) }
      let cur ← (hb.levels (i + 1))[pos]?
      skipDown hb n (i + 1) cur pos hbi

/-- `hbitmap_iter_skip_words` : advance to the next nonzero word and return it, or return
zero at the end of the bitmap. -/
def hbitmapIterSkipWords (hbi : HBitmapIter) : Option (HBitmapIter × Word) := do
  let (i, cur, pos) ← skipUp hbi (hbitmapLevels - 1) hbi.pos
  -- only the sentinel is left in level 0
  if i = 0 ∧ cur = 1#64 <<< 63 then some (hbi, 0#64)
  else skipDown hb (hbitmapLevels - 1 - i) i cur pos hbi

/-- The loop of `hbitmap_iter_init` over the levels below `i`, `pos` being the position in
level `i - 1`. -/
def iterInitCur (hb : HBitmap) : ℕ → ℕ → (ℕ → Word) → Option (ℕ → Word)
  | 0, _, cur => some cur
  | i + 1, pos, cur => do
    let bit := pos % 64
    let word ← (hb.levels i)[pos / 64]?
    let kept := word &&& ~~~((1#64 <<< bit) - 1#64)
    let kept := if i ≠ hbitmapLevels - 1 then kept &&& ~~~(1#64 <<< bit) else kept
    iterInitCur hb i (pos / 64) (Function.update cur i kept)

/-- `hbitmap_iter_init`. -/
def hbitmapIterInit (first : ℕ) : Option HBitmapIter :=
  let pos := first / 2 ^ hb.granularity
  if pos < hb.size then do
    let cur ← iterInitCur hb hbitmapLevels pos fun _ => 0#64
    some ⟨hb.granularity, pos / 64, cur⟩
  else none

/-- The first lines of `hbitmap_iter_next` and `hbitmap_iter_next_word` : the rest of the
current word, or the next nonzero word, or zero. -/
def iterCurWord (hbi : HBitmapIter) : Option (HBitmapIter × Word) :=
  if hbi.cur (hbitmapLevels - 1) = 0#64 then hbitmapIterSkipWords hb hbi
  else some (hbi, hbi.cur (hbitmapLevels - 1))

/-- `hbitmap_iter_next`. The item is computed as an `int64_t`. -/
def hbitmapIterNext (hbi : HBitmapIter) : Option (HBitmapIter × ℤ) := do
  let (hbi, cur) ← iterCurWord hb hbi
  if cur = 0#64 then some (hbi, -1)
  else
    let item := hbi.pos * 64 + ctzl cur
    let rest := Function.update hbi.cur (hbitmapLevels - 1) (cur &&& (cur - 1#64))
    some ({ hbi with cur := rest }, (BitVec.ofNat 64 (item * 2 ^ hbi.granularity)).toInt)

/-- `hbitmap_iter_next_word`. The index at the end is `(size_t)-1`. -/
def hbitmapIterNextWord (hbi : HBitmapIter) : Option (HBitmapIter × ℕ × Word) := do
  let (hbi, cur) ← iterCurWord hb hbi
  if cur = 0#64 then some (hbi, 2 ^ 64 - 1, 0#64)
  else some ({ hbi with cur := Function.update hbi.cur (hbitmapLevels - 1) 0#64 }, hbi.pos, cur)

/-- The loop of `hb_count_between` with a bound on the number of words it reads. -/
def countWords (hb : HBitmap) (stop : ℕ) : ℕ → HBitmapIter → ℕ → Option (ℕ × ℕ × Word)
  | 0, _, _ => none
  | fuel + 1, hbi, count => do
    let (hbi, pos, cur) ← hbitmapIterNextWord hb hbi
    if stop ≤ pos then some (count, pos, cur)
    else countWords hb stop fuel hbi (count + popcountl cur)

/-- `hb_count_between` : the number of set bits from `start` to `last`. Words come in
increasing order, so the loop reads at most one word past each index below the stop. -/
def hbCountBetween (start last : ℕ) : Option ℕ := do
  let stop := last + 1
  let hbi ← hbitmapIterInit hb (start * 2 ^ hb.granularity)
  let (count, pos, cur) ← countWords hb (stop / 64) (stop / 64 + 1) hbi 0
  if pos = stop / 64 then
    some (count + popcountl (cur &&& ((1#64 <<< (stop % 64)) - 1#64)))
  else some count

/-! ## Setting -/

/-- `hb_set_elem` : the new word, and whether the old one was zero. -/
def hbSetElem (elem : Word) (start last : ℕ) : Option (Word × Bool) :=
  if last / 64 = start / 64 ∧ start ≤ last then
    some (elem ||| rangeMask (start % 64) (last % 64), elem == 0#64)
  else none

/-- The loop of `hb_set_between` over the `n` words strictly between the first and the
last one, from word `i` on. -/
def hbSetFull : ℕ → List Word → ℕ → Bool → Option (List Word × Bool)
  | 0, words, _, changed => some (words, changed)
  | n + 1, words, i, changed => do
    let elem ← words[i]?
    hbSetFull n (words.set i (BitVec.allOnes 64)) (i + 1) (changed || elem == 0#64)

/-- One level of `hb_set_between`. -/
def hbSetLevel (words : List Word) (start last : ℕ) : Option (List Word × Bool) := do
  let pos := start / 64
  let lastpos := last / 64
  let (words, start, changed) ←
    if pos < lastpos then do
      let next := (start ||| 63) + 1
      let (elem, changed) ← hbSetElem (← words[pos]?) start (next - 1)
      let (words, changed) ← hbSetFull (lastpos - (pos + 1)) (words.set pos elem) (pos + 1) changed
      some (words, next + 64 * (lastpos - (pos + 1)), changed)
    else some (words, start, false)
  let (elem, changed') ← hbSetElem (← words[lastpos]?) start last
  some (words.set lastpos elem, changed || changed')

/-- `hb_set_between`, which recurses while `level > 0 && changed`. -/
def hbSetBetween : ℕ → HBitmap → ℕ → ℕ → Option HBitmap
  | 0, hb, start, last => do
    let (words, _) ← hbSetLevel (hb.levels 0) start last
    some (hb.setLevel 0 words)
  | level + 1, hb, start, last => do
    let (words, changed) ← hbSetLevel (hb.levels (level + 1)) start last
    let hb := hb.setLevel (level + 1) words
    if changed then hbSetBetween level hb (start / 64) (last / 64) else some hb

/-- `hbitmap_set`. -/
def hbitmapSet (start count : ℕ) : Option HBitmap := do
  let last := (start + count + (2 ^ 64 - 1)) % 2 ^ 64
  let start := start / 2 ^ hb.granularity
  let last := last / 2 ^ hb.granularity
  let count := (last + (2 ^ 64 - start) + 1) % 2 ^ 64
  let old ← hbCountBetween hb start last
  let hb := { hb with count := (hb.count + (count + (2 ^ 64 - old))) % 2 ^ 64 }
  hbSetBetween (hbitmapLevels - 1) hb start last

/-! ## Resetting -/

/-- `hb_reset_elem` : the new word, and whether it became zero. -/
def hbResetElem (elem : Word) (start last : ℕ) : Option (Word × Bool) :=
  if last / 64 = start / 64 ∧ start ≤ last then
    let rest := elem &&& ~~~rangeMask (start % 64) (last % 64)
    some (rest, elem != 0#64 && rest == 0#64)
  else none

/-- The loop of `hb_reset_between` over the `n` words strictly between the first and the
last one, from word `i` on. -/
def hbResetFull : ℕ → List Word → ℕ → Bool → Option (List Word × Bool)
  | 0, words, _, changed => some (words, changed)
  | n + 1, words, i, changed => do
    let elem ← words[i]?
    hbResetFull n (words.set i 0#64) (i + 1) (changed || elem != 0#64)

/-- One level of `hb_reset_between` : the new words, whether a word became zero, and the
range of the words to clear in the level above. -/
def hbResetLevel (words : List Word) (start last : ℕ) : Option (List Word × Bool × ℕ × ℕ) := do
  let pos := start / 64
  let lastpos := last / 64
  let i := pos
  let (words, start, changed, pos, i) ←
    if i < lastpos then do
      let next := (start ||| 63) + 1
      let (elem, blanked) ← hbResetElem (← words[i]?) start (next - 1)
      -- bits remain in the first word : keep its bit in the level above
      let pos := if blanked then pos else pos + 1
      let (words, changed) ← hbResetFull (lastpos - (i + 1)) (words.set i elem) (i + 1) blanked
      some (words, next + 64 * (lastpos - (i + 1)), changed, pos, lastpos)
    else some (words, start, false, pos, i)
  let (elem, blanked) ← hbResetElem (← words[i]?) start last
  some (words.set i elem, changed || blanked, pos, if blanked then lastpos else lastpos - 1)

/-- `hb_reset_between`, which recurses while `level > 0 && changed`. -/
def hbResetBetween : ℕ → HBitmap → ℕ → ℕ → Option HBitmap
  | 0, hb, start, last => do
    let (words, _) ← hbResetLevel (hb.levels 0) start last
    some (hb.setLevel 0 words)
  | level + 1, hb, start, last => do
    let (words, changed, pos, lastpos) ← hbResetLevel (hb.levels (level + 1)) start last
    let hb := hb.setLevel (level + 1) words
    if changed then hbResetBetween level hb pos lastpos else some hb

/-- `hbitmap_reset`. -/
def hbitmapReset (start count : ℕ) : Option HBitmap := do
  let last := (start + count + (2 ^ 64 - 1)) % 2 ^ 64
  let start := start / 2 ^ hb.granularity
  let last := last / 2 ^ hb.granularity
  let old ← hbCountBetween hb start last
  let hb := { hb with count := (hb.count + (2 ^ 64 - old)) % 2 ^ 64 }
  hbResetBetween (hbitmapLevels - 1) hb start last

/-! ## Reading and allocating -/

/-- `hbitmap_get`. -/
def hbitmapGet (item : ℕ) : Option Bool := do
  let pos := item / 2 ^ hb.granularity
  let word ← (hb.levels (hbitmapLevels - 1))[pos / 64]?
  some (word &&& (1#64 <<< (pos % 64)) != 0#64)

/-- The loop of `hbitmap_alloc` over the levels below `i` : the levels, zeroed, and the
number of words of the last one it made. -/
def allocLevels : ℕ → ℕ → (ℕ → List Word) → (ℕ → List Word) × ℕ
  | 0, size, levels => (levels, size)
  | i + 1, size, levels =>
    let size := max ((size + 63) / 64) 1
    allocLevels i size (Function.update levels i (List.replicate size 0#64))

/-- The groups of a size, rounded up in `uint64_t`. -/
def groupsOf (size granularity : ℕ) : ℕ :=
  ((size + 2 ^ granularity + (2 ^ 64 - 1)) % 2 ^ 64) / 2 ^ granularity

/-- `hbitmap_alloc`. -/
def hbitmapAlloc (size granularity : ℕ) : Option HBitmap :=
  if granularity < 64 then
    let size := groupsOf size granularity
    if size ≤ 2 ^ hbitmapLogMaxSize then
      let (levels, words) := allocLevels hbitmapLevels size fun _ => []
      if words = 1 then
        let sentinel := (levels 0).set 0 ((levels 0).getD 0 0#64 ||| 1#64 <<< 63)
        some ⟨size, 0, granularity, Function.update levels 0 sentinel⟩
      else none
    else none
  else none

end QemuArm
