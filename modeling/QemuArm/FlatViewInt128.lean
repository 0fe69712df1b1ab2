import QemuArm.FlatViewRender

/-!
# The renderer over 128-bit integers

The code computes with `Int128`. Every sum and difference it takes is exact modulo
`2 ^ 128`, and every comparison and every `int128_get64` is on a number well inside the
range, because a region is only followed when it meets its clip
(`renderMemoryRegion_ofInt`). So the flat view of the code is the one over the integers.

`flatViewCorrect_iff` : for a hierarchy without cycles, `generate_memory_topology` returns
a sorted view of disjoint ranges that are not empty, which maps every address to what
`resolve` finds, exactly when no region that covers the whole 64-bit space is rendered
after one that does so alone.
-/

namespace QemuArm

open List

open AddressArith

/-! ## The operations -/

namespace Int128

/-- A bound that leaves room for a few more operations. -/
def Small (z : ℤ) : Prop := -2 ^ 70 ≤ z ∧ z ≤ 2 ^ 70

variable {x y : ℤ}

theorem Small.inRange (h : Small x) : InRange x := by
  unfold Small at h
  unfold InRange
  omega

theorem arith_add (x y : ℤ) : AddressArith.add (ofInt x) (ofInt y) = ofInt (x + y) :=
  add_ofInt x y

theorem arith_sub (x y : ℤ) : AddressArith.sub (ofInt x) (ofInt y) = ofInt (x - y) :=
  sub_ofInt x y

theorem arith_make64 (a : Hwaddr) : (AddressArith.make64 a : Int128) = ofInt a.toNat :=
  (ofInt_make64 a).symm

theorem arith_ofInt128 (a : Int128) : (AddressArith.ofInt128 a : Int128) = ofInt a.toInt :=
  (ofInt_toInt a).symm

theorem arith_zero : (AddressArith.zero : Int128) = ofInt 0 := by decide

theorem arith_two64 : (AddressArith.two64 : Int128) = ofInt (2 ^ 64) := by decide

section

variable (hx : Small x)
include hx

theorem arith_ge (hy : Small y) : AddressArith.ge (ofInt x) (ofInt y) = decide (y ≤ x) :=
  ge_ofInt hx.inRange hy.inRange

theorem arith_le (hy : Small y) : AddressArith.le (ofInt x) (ofInt y) = decide (x ≤ y) :=
  arith_ge hy hx

theorem arith_lt (hy : Small y) : AddressArith.lt (ofInt x) (ofInt y) = decide (x < y) := by
  rw [← int_lt, AddressArith.lt, AddressArith.lt, arith_ge hx hy, int_ge]

theorem arith_eq (hy : Small y) : AddressArith.eq (ofInt x) (ofInt y) = decide (x = y) := by
  have hext : AddressArith.eq (ofInt x) (ofInt y) = true ↔ ofInt x = ofInt y := by
    rw [Int128.ext_iff]
    exact Bool.and_eq_true_iff.trans (and_congr beq_iff_eq beq_iff_eq)
  rw [Bool.eq_iff_iff, hext, ofInt_inj hx.inRange hy.inRange, decide_eq_true_eq]

theorem arith_nz : AddressArith.nz (ofInt x) = decide (x ≠ 0) := by
  rw [← int_nz, AddressArith.nz, AddressArith.nz, arith_zero, arith_eq hx ⟨by omega, by omega⟩,
    int_eq, int_zero]

theorem arith_min (hy : Small y) : AddressArith.min (ofInt x) (ofInt y) = ofInt (Min.min x y) := by
  rw [← int_min, AddressArith.min, AddressArith.min, arith_le hx hy, int_le, apply_ite ofInt]

theorem arith_max (hy : Small y) : AddressArith.max (ofInt x) (ofInt y) = ofInt (Max.max x y) := by
  rw [← int_max, AddressArith.max, AddressArith.max, arith_ge hx hy, int_ge, apply_ite ofInt]

theorem assert64_ofInt : assert64 (ofInt x) = assert64 x := by
  have hget : AddressArith.get64 (ofInt x) = AddressArith.get64 x := get64_ofInt hx.inRange
  rw [assert64, assert64, hget]

end

end Int128

/-! ## Ranges -/

open Int128

def AddrRange.encode (r : AddrRange ℤ) : AddrRange Int128 := ⟨ofInt r.start, ofInt r.size⟩

def AddrRange.decode (r : AddrRange Int128) : AddrRange ℤ := ⟨r.start.toInt, r.size.toInt⟩

def FlatRange.encode (r : FlatRange ℤ) : FlatRange Int128 :=
  ⟨r.mr, r.offsetInRegion, r.addr.encode, r.dirtyLogMask, r.romdMode, r.readonly⟩

open FlatRange

/-- The range as integers. -/
def FlatRange.decode (r : FlatRange Int128) : FlatRange ℤ :=
  ⟨r.mr, r.offsetInRegion, r.addr.decode, r.dirtyLogMask, r.romdMode, r.readonly⟩

/-- A view over `Int128`. -/
def encodeView (view : FlatView ℤ) : FlatView Int128 := view.map FlatRange.encode

theorem encodeView_cons (r : FlatRange ℤ) (view : FlatView ℤ) :
    encodeView (r :: view) = r.encode :: encodeView view := rfl

theorem addrrangeEnd_encode (r : AddrRange ℤ) :
    addrrangeEnd r.encode = ofInt (r.start + r.size) := arith_add _ _

variable {view : FlatView ℤ}

theorem decode_encodeView (hok : ViewOK view) : (encodeView view).map decode = view := by
  rw [encodeView, map_map]
  refine map_congr_left (fun r hr => ?_) |>.trans (map_id view)
  have h1 := hok.start r hr
  have h2 := hok.pos r hr
  have h3 := hok.stop r hr
  have hstart : Small r.addr.start := ⟨by omega, by omega⟩
  have hsize : Small r.addr.size := ⟨by omega, by omega⟩
  simp only [Function.comp_apply, encode, decode, AddrRange.encode,
    AddrRange.decode, toInt_ofInt hstart.inRange, toInt_ofInt hsize.inRange, id_eq]

/-! ## Filling the gaps -/

theorem passRange_encode {rest' rest} {inserted
    r} {base remain offset} (h0 : 0 ≤ base) (hr : 0 ≤ remain)
    (hle : base + remain ≤ 2 ^ 64) (hbase : base ≤ r.addr.start + r.addr.size)
    (hstop : r.addr.start + r.addr.size ≤ 2 ^ 64)
    (hrest : ∀ base' remain' offset', 0 ≤ base' → 0 ≤ remain' → base' + remain' ≤ 2 ^ 64 →
      rest' (ofInt base') (ofInt remain') offset' = (rest base' remain' offset').map encodeView) :
    passRange rest' (encodeView inserted) r.encode (ofInt base) (ofInt remain) offset =
      (passRange rest inserted r base remain offset).map encodeView := by
  rw [passRange, passRange, encode, addrrangeEnd_encode, arith_add,
    arith_min ⟨by omega, by omega⟩ ⟨by omega, by omega⟩, arith_sub]
  simp only [int_add, int_sub, int_min, addrrangeEnd]
  obtain ⟨now, hnow⟩ := @exists_eq _ (Min.min (base + remain) (r.addr.start + r.addr.size) - base)
  rw [← hnow, assert64_ofInt ⟨by omega, by omega⟩]
  cases assert64 now with
  | error e => rfl
  | ok now64 =>
    have hrec := hrest (base + now) (remain - now) (offset + now64) (by omega) (by omega) (by omega)
    rw [arith_add, arith_sub]
    show (rest' (ofInt (base + now)) (ofInt (remain - now)) (offset + now64) >>= _) = _
    rw [hrec]
    cases hres : rest (base + now) (remain - now) (offset + now64) with
    | error e => simp [bind, Except.bind, Except.map, hres]
    | ok view => simp [bind, Except.bind, Except.map, hres, encodeView, encode]

theorem renderGaps_encode {fr} : ∀ view (base remain : ℤ)
    (offset : Hwaddr), ViewOK view → 0 ≤ base → 0 ≤ remain → base + remain ≤ 2 ^ 64 →
    renderGaps fr.encode (encodeView view) (ofInt base) (ofInt remain) offset =
      (renderGaps fr view base remain offset).map encodeView
  | [], base, remain, offset, _, h0, hr, hle => by
    rw [encodeView, map_nil, renderGaps, renderGaps, arith_nz ⟨by omega, by omega⟩, int_nz]
    split <;> rfl
  | r :: view, base, remain, offset, hok, h0, hr, hle => by
    obtain ⟨-, hpos, hstart, hstop, hview⟩ := viewOK_cons.1 hok
    have hrest := fun base' remain' offset' =>
      @renderGaps_encode fr view base' remain' offset' hview
    rw [encodeView_cons, renderGaps, renderGaps, arith_nz ⟨by omega, by omega⟩, int_nz]
    split
    · rfl
    rw [show r.encode.addr = r.addr.encode from rfl, addrrangeEnd_encode,
      arith_ge ⟨by omega, by omega⟩ ⟨by omega, by omega⟩, int_ge, addrrangeEnd, int_add]
    split
    · rw [hrest base remain offset h0 hr hle]
      cases hres : renderGaps fr view base remain offset <;>
        simp [bind, Except.bind, Except.map, encodeView_cons]
    rename_i hge
    simp only [decide_eq_true_eq] at hge
    rw [show r.addr.encode.start = ofInt r.addr.start from rfl,
      arith_lt ⟨by omega, by omega⟩ ⟨by omega, by omega⟩, int_lt]
    split
    · rw [arith_sub, arith_min ⟨by omega, by omega⟩ ⟨by omega, by omega⟩, int_sub, int_min]
      obtain ⟨now, hnow⟩ := @exists_eq _ (Min.min remain (r.addr.start - base))
      dsimp only
      rw [← hnow, assert64_ofInt ⟨by omega, by omega⟩]
      cases assert64 now with
      | error e => rfl
      | ok now64 =>
        rw [arith_add, arith_sub]
        exact @passRange_encode _ _ [{ fr with offsetInRegion := offset, addr := ⟨base, now⟩ }] r
          (base + now) (remain - now) (offset + now64) (by omega) (by omega)
          (by omega) (by omega) hstop hrest
    · exact @passRange_encode _ _ [] r base remain offset h0 hr hle (by omega) hstop hrest

/-! ## Rendering -/

theorem exists_hasFill (view : FlatView ℤ) : ∃ s, HasFill view s := by
  by_cases hf : ∃ r ∈ view, r.Full
  · exact ⟨.full, hf⟩
  · cases view with
    | nil => exact ⟨.empty, rfl⟩
    | cons r view => exact ⟨.part, cons_ne_nil r view, hf⟩

variable {mem : Memory}

/-- The renderer keeps views well formed. -/
theorem viewOK_of_renderMemoryRegion {depth view' p base
    clip readonly} (hok : ViewOK view) (hc : ClipOK clip)
    (h : renderMemoryRegion mem depth view p base clip readonly = .ok view') : ViewOK view' := by
  obtain ⟨s, hs⟩ := exists_hasFill view
  rcases renderMemoryRegion_spec depth view p base clip readonly s hok hs hc with
    herr | ⟨-, herr⟩ | ⟨view'', hrun, -, hok', -⟩
  · rw [h] at herr
    cases herr
  · rw [h] at herr
    cases herr
  · rw [h] at hrun
    cases hrun
    exact hok'

section Ranges

variable {r1 r2 : AddrRange ℤ}

section

variable (h1 : Small r1.start) (h2 : Small r2.start) (h3 : Small (r1.start + r1.size))
  (h4 : Small (r2.start + r2.size))
include h1 h2 h3 h4

theorem addrrangeIntersects_encode :
    addrrangeIntersects r1.encode r2.encode = addrrangeIntersects r1 r2 := by
  rw [addrrangeIntersects, addrrangeContains, addrrangeContains, addrrangeEnd_encode,
    addrrangeEnd_encode, show r1.encode.start = ofInt r1.start from rfl,
    show r2.encode.start = ofInt r2.start from rfl, arith_ge h1 h2, arith_ge h2 h1, arith_lt h1 h4,
    arith_lt h2 h3]
  simp only [addrrangeIntersects, addrrangeContains, addrrangeEnd, int_ge, int_lt, int_add]

theorem addrrangeIntersection_encode :
    addrrangeIntersection r1.encode r2.encode = (addrrangeIntersection r1 r2).encode := by
  rw [addrrangeIntersection_int, addrrangeIntersection, addrrangeEnd_encode, addrrangeEnd_encode,
    arith_min h3 h4, show r1.encode.start = ofInt r1.start from rfl,
    show r2.encode.start = ofInt r2.start from rfl, arith_max h1 h2, arith_sub]
  rfl

end

end Ranges

/-- Rendering the subregions over `Int128` and over the integers. -/
theorem renderSubregions_encode {α : Type}
    {render : FlatView ℤ → α → Except RenderError (FlatView ℤ)}
    {render' : FlatView Int128 → α → Except RenderError (FlatView Int128)} :
    ∀ (l : List α) (view : FlatView ℤ), (∀ q ∈ l, ∀ view, ViewOK view →
      render' (encodeView view) q = (render view q).map encodeView ∧
        ∀ view', render view q = .ok view' → ViewOK view') → ViewOK view →
    l.foldlM render' (encodeView view) = (l.foldlM render view).map encodeView ∧
      ∀ view', l.foldlM render view = .ok view' → ViewOK view'
  | [], view, _, hok => ⟨rfl, fun view' h => by cases h; exact hok⟩
  | q :: l, view, h, hok => by
    obtain ⟨hq, hq'⟩ := h q mem_cons_self view hok
    rw [foldlM_cons, foldlM_cons, hq]
    cases hres : render view q with
    | error e => exact ⟨rfl, fun view' h => by cases h⟩
    | ok view' =>
      exact renderSubregions_encode l view' (fun q' hm => h q' (mem_cons_of_mem q hm))
        (hq' view' hres)

/-- The renderer over `Int128` is the renderer over the integers. -/
theorem renderMemoryRegion_ofInt :
    ∀ (depth : ℕ) (view : FlatView ℤ) (p : MrPtr) (base : ℤ) (clip : AddrRange ℤ)
    (readonly : Bool), ViewOK view → ClipOK clip → -2 ^ 68 ≤ base → base ≤ 2 ^ 68 →
    renderMemoryRegion mem depth (encodeView view) p (ofInt base) clip.encode readonly =
      (renderMemoryRegion mem depth view p base clip readonly).map encodeView
  | 0, view, p, base, clip, readonly, _, _, _, _ => by
    rw [renderMemoryRegion, renderMemoryRegion]
    split <;> rfl
  | depth + 1, view, p, base, clip, readonly, hok, hc, hb0, hb1 => by
    obtain ⟨c0, c1, c2⟩ := hc
    have hsize0 := (mem p).size_nonneg
    have hsize1 := (mem p).size_le
    rw [renderMemoryRegion, renderMemoryRegion]
    simp only [arith_make64, arith_add, int_make64, int_add, arith_ofInt128, int_ofInt128, int_sub]
    obtain ⟨b, hb⟩ := @exists_eq _ (base + ((mem p).addr.toNat : ℤ))
    rw [← hb]
    split
    · rfl
    obtain ⟨tmp, htmp⟩ := @exists_eq (AddrRange ℤ) (⟨b, (mem p).size.toInt⟩)
    have hstart : tmp.start = b := by rw [htmp]
    have hsize : tmp.size = (mem p).size.toInt := by rw [htmp]
    have henc : (⟨ofInt b, ofInt (mem p).size.toInt⟩ : AddrRange Int128) = tmp.encode := by
      rw [htmp]
      rfl
    rw [henc, ← htmp, addrrangeIntersects_encode ⟨by omega, by omega⟩ ⟨by omega, by omega⟩
      ⟨by omega, by omega⟩ ⟨by omega, by omega⟩, addrrangeIntersection_encode ⟨by omega, by omega⟩
      ⟨by omega, by omega⟩ ⟨by omega, by omega⟩ ⟨by omega, by omega⟩]
    split
    · rfl
    rename_i hint
    have hi : addrrangeIntersects tmp clip := by simpa using hint
    have hc' := clipOK_intersection (by omega) ⟨c0, c1, c2⟩ hi
    rw [addrrangeIntersects_int] at hi
    cases hal : (mem p).aliasMr with
    | some orig =>
      simp only [arith_sub]
      exact renderMemoryRegion_ofInt depth view orig _ _ _ hok hc' (by omega) (by omega)
    | none =>
      have hclip : Small ((addrrangeIntersection tmp clip).start - b) := by
        rw [addrrangeIntersection_int]
        constructor <;> dsimp only <;> omega
      generalize addrrangeIntersection tmp clip = clip at hc' hclip ⊢
      have hchild : ∀ q ∈ (mem p).subregions, ∀ view, ViewOK view → renderMemoryRegion mem depth
          (encodeView view) q (ofInt b) clip.encode (readonly || (mem p).readonly) =
            (renderMemoryRegion mem depth view q b clip (readonly || (mem p).readonly)).map
              encodeView ∧
          ∀ view', renderMemoryRegion mem depth view q b clip (readonly || (mem p).readonly) =
            .ok view' → ViewOK view' := by
        intro q _ view hok
        exact ⟨renderMemoryRegion_ofInt depth view q b clip (readonly || (mem p).readonly) hok hc'
          (by omega) (by omega), fun view' => viewOK_of_renderMemoryRegion hok hc'⟩
      obtain ⟨hsub, hsub'⟩ := @renderSubregions_encode _
        (fun view q => renderMemoryRegion mem depth view q b clip (readonly || (mem p).readonly))
        (fun view q => renderMemoryRegion mem depth view q (ofInt b) clip.encode
          (readonly || (mem p).readonly)) (mem p).subregions view hchild hok
      rw [hsub]
      cases hres : (mem p).subregions.foldlM (fun view q =>
        renderMemoryRegion mem depth view q b clip (readonly || (mem p).readonly)) view with
      | error e => rfl
      | ok view' =>
        show (if !(mem p).terminates then Except.ok (encodeView view') else _) =
          Except.map encodeView (if !(mem p).terminates then Except.ok view' else _)
        split
        · rfl
        rw [show clip.encode.start = ofInt clip.start from rfl, arith_sub, assert64_ofInt hclip]
        cases assert64 (clip.start - b) with
        | error e => rfl
        | ok offset =>
          exact @renderGaps_encode ⟨p, offset, clip, (mem p).dirtyLogMask, (mem p).romdMode,
            readonly || (mem p).readonly⟩ view' clip.start clip.size offset (hsub' view' hres)
            hc'.start hc'.size hc'.stop

/-! ## Merging -/

theorem canMerge_encode {r1 r2}
    (h1 : 0 ≤ r1.addr.start ∧ 0 < r1.addr.size ∧ r1.addr.start + r1.addr.size ≤ 2 ^ 64)
    (h2 : 0 ≤ r2.addr.start ∧ 0 < r2.addr.size ∧ r2.addr.start + r2.addr.size ≤ 2 ^ 64) :
    canMerge r1.encode r2.encode = canMerge r1 r2 := by
  simp only [canMerge, encode, addrrangeEnd_encode, arith_make64]
  rw [show r2.addr.encode.start = ofInt r2.addr.start from rfl,
    show r1.addr.encode.size = ofInt r1.addr.size from rfl, arith_add,
    arith_eq ⟨by omega, by omega⟩ ⟨by omega, by omega⟩,
    arith_eq ⟨by omega, by omega⟩ ⟨by omega, by omega⟩]
  simp

theorem simplifyFrom_encode : ∀ view cur last, ViewOK (last :: view) →
    simplifyFrom cur.encode last.encode (encodeView view) = encodeView (simplifyFrom cur last view)
  | [], _, _, _ => rfl
  | r :: view, cur, last, hok => by
    obtain ⟨-, hpos, hstart, hstop, hview⟩ := viewOK_cons.1 hok
    obtain ⟨-, hpos', hstart', hstop', -⟩ := viewOK_cons.1 hview
    rw [encodeView_cons, simplifyFrom, simplifyFrom,
      canMerge_encode ⟨hstart, hpos, hstop⟩ ⟨hstart', hpos', hstop'⟩]
    split
    · rw [show cur.encode.addr.size = ofInt cur.addr.size from rfl,
        show r.encode.addr.size = ofInt r.addr.size from rfl, arith_add]
      exact simplifyFrom_encode view
        { cur with addr := ⟨cur.addr.start, cur.addr.size + r.addr.size⟩ } r hview
    · rw [encodeView_cons, simplifyFrom_encode view r r hview]

theorem flatviewSimplify_encode (hok : ViewOK view) :
    flatviewSimplify (encodeView view) = encodeView (flatviewSimplify view) := by
  cases view with
  | nil => rfl
  | cons r view => exact simplifyFrom_encode view r r hok

/-! ## The flat view -/

theorem generateMemoryTopology_ofInt (mem : Memory) (depth : ℕ) (root : MrPtr) :
    (generateMemoryTopology mem depth (some root) :
      Except RenderError (FlatView Int128)) =
      (generateMemoryTopology mem depth (some root)).map encodeView := by
  have hclip : ClipOK ⟨0, 2 ^ 64⟩ := ⟨le_rfl, by decide, by decide⟩
  have hrender := @renderMemoryRegion_ofInt mem depth [] root 0 ⟨0, 2 ^ 64⟩ false viewOK_nil hclip
    (by decide) (by decide)
  simp only [generateMemoryTopology, arith_zero, arith_two64, int_zero, int_two64]
  rw [show (⟨ofInt 0, ofInt (2 ^ 64)⟩ : AddrRange Int128) = AddrRange.encode ⟨0, 2 ^ 64⟩ from rfl,
    show ([] : FlatView Int128) = encodeView [] from rfl, hrender]
  cases hres : renderMemoryRegion mem depth ([] : FlatView ℤ) root 0 ⟨0, 2 ^ 64⟩ false with
  | error e => rfl
  | ok view =>
    have hok := viewOK_of_renderMemoryRegion viewOK_nil hclip hres
    exact congrArg Except.ok (flatviewSimplify_encode hok)

/-- The result of `generate_memory_topology` over the integers. -/
theorem generateMemoryTopology_int (mem : Memory) (depth : ℕ) (root : MrPtr) :
    generateMemoryTopology mem depth (some root) =
        (.error .tooDeep : Except RenderError (FlatView ℤ)) ∨
      FullTwice (clips mem depth root 0 fullRange) ∧
        generateMemoryTopology mem depth (some root) =
          (.error .assertFailed : Except RenderError (FlatView ℤ)) ∨
      ¬FullTwice (clips mem depth root 0 fullRange) ∧
        ∃ view : FlatView ℤ, generateMemoryTopology mem depth (some root) = .ok view ∧ ViewOK view ∧
          ∀ a, viewAt view a = within fullRange (resolve mem depth root 0 false) a := by
  have hrender := @renderMemoryRegion_spec mem depth [] root 0 fullRange false .empty viewOK_nil rfl
    ⟨le_rfl, by decide, by decide⟩
  simp only [generateMemoryTopology, int_zero, int_two64]
  rw [show (⟨0, 2 ^ 64⟩ : AddrRange ℤ) = fullRange from rfl]
  rcases hrender with herr | ⟨hfail, herr⟩ | ⟨view, hrun, hfill, hok, hat⟩
  · rw [herr]
    exact .inl rfl
  · rw [herr]
    exact .inr (.inl ⟨foldl_step_empty.1 hfail, rfl⟩)
  · rw [hrun]
    refine .inr (.inr ⟨fun htwice => ?_, flatviewSimplify view, rfl,
      (flatviewSimplify_spec hok).1, fun a => ?_⟩)
    · rw [foldl_step_empty.2 htwice] at hfill
      exact hfill
    · rw [(flatviewSimplify_spec hok).2, hat]
      rfl

/-- The flat view is made, its ranges are sorted, disjoint and not empty, and they map
every address to what pointwise resolution finds. -/
def FlatViewCorrect (mem : Memory) (depth : ℕ) (root : MrPtr) : Prop :=
  ∃ view : FlatView Int128, generateMemoryTopology mem depth (some root) = .ok view ∧
    ViewOK (view.map FlatRange.decode) ∧ ∀ a, 0 ≤ a → a < 2 ^ 64 →
      viewAt (view.map FlatRange.decode) a = resolve mem depth root 0 false a

/-- Flat views are correct, unless two regions that cover the whole 64-bit space are
rendered over each other. -/
theorem flatViewCorrect_iff {root : MrPtr} (hacc : Acc (Child mem) root) :
    ∃ depth, ∀ d, depth ≤ d →
      (FlatViewCorrect mem d root ↔ ¬FullTwice (clips mem d root 0 fullRange)) := by
  obtain ⟨depth, hdepth⟩ := exists_nested hacc
  refine ⟨depth, fun d hd => ?_⟩
  have henc := generateMemoryTopology_ofInt mem d root
  rcases generateMemoryTopology_int mem d root with
    herr | ⟨htwice, herr⟩ | ⟨htwice, view, hrun, hok, hat⟩
  · exact absurd herr (bind_ne_tooDeep (renderMemoryRegion_ne_tooDeep d _ root _ _ _
      (hdepth.mono hd)) fun _ => nofun)
  · refine iff_of_false ?_ (not_not_intro htwice)
    rintro ⟨view, hview, -⟩
    rw [henc, herr] at hview
    cases hview
  · refine iff_of_true ⟨encodeView view, by rw [henc, hrun]; rfl, ?_⟩ htwice
    rw [decode_encodeView hok]
    exact ⟨hok, fun a h0 h1 => (hat a).trans (if_pos ⟨h0, by simpa [fullRange] using h1⟩)⟩

/-- A bus of 64 bits with a device and a read-only window, in front of it, on another one. -/
def windowMemory : Memory
  | 0 => { memoryRegionInit (-1) with subregions := [1, 2] }
  | 1 => { memoryRegionInitAlias 3 0x100 0x200 with
           parent := some 0, addr := 0x1000, priority := 1, readonly := true }
  | 2 => { memoryRegionInitIo 0x4000 with parent := some 0 }
  | _ => memoryRegionInitIo 0x1000

theorem acc_windowMemory : Acc (Child windowMemory) 0 := by
  have hleaf : ∀ p, 1 < p → Acc (Child windowMemory) p := fun p hp =>
    Acc.intro p fun q hq => by
      match p, hp, hq with
      | 2, _, hq | n + 3, _, hq =>
        simp [Child, windowMemory, memoryRegionInitIo, memoryRegionInit] at hq
  refine Acc.intro 0 fun q hq => ?_
  have hq' : q ∈ [1, 2] := hq
  simp only [mem_cons, not_mem_nil, or_false] at hq'
  rcases hq' with rfl | rfl
  · exact Acc.intro 1 fun q hq => by
      have hq' : q = 3 := hq
      exact hq' ▸ hleaf 3 (by decide)
  · exact hleaf 2 (by decide)

/-- The flat view of the bus with the window is correct. -/
theorem flatViewCorrect_windowMemory :
    ∃ depth, ∀ d, depth ≤ d → FlatViewCorrect windowMemory d 0 := by
  obtain ⟨depth, h⟩ := flatViewCorrect_iff acc_windowMemory
  refine ⟨Max.max depth 3, fun d hd => (h d (le_of_max_le_left hd)).2 ?_⟩
  obtain ⟨k, rfl⟩ : ∃ k, d = k + 3 := ⟨d - 3, by omega⟩
  rintro ⟨rest, hrest, -⟩
  cases hrest

/-- Two devices that cover the whole 64-bit space, on one bus. -/
def overlaidMemory : Memory
  | 0 => { memoryRegionInit (-1) with subregions := [1, 2] }
  | _ => { memoryRegionInitIo (-1) with parent := some 0, mayOverlap := true }

/-- The second device passes over `2 ^ 64` bytes, which `int128_get64` refuses. -/
theorem not_flatViewCorrect_overlaidMemory : Nested overlaidMemory 2 0 ∧
    (generateMemoryTopology overlaidMemory 2 (some 0) : Except RenderError (FlatView Int128)) =
      .error .assertFailed := by
  refine ⟨fun q hq => ?_, by decide +kernel⟩
  have hq' : q ∈ [1, 2] := hq
  have hterm : (overlaidMemory q).subregions = [] ∧ (overlaidMemory q).aliasMr = none := by
    simp only [List.mem_cons, List.not_mem_nil, or_false] at hq'
    rcases hq' with rfl | rfl <;> exact ⟨rfl, rfl⟩
  intro q' hq''
  simp [Child, hterm] at hq''

end QemuArm
