import QemuArm.FlatView

/-!
# The renderer against pointwise resolution

`resolve` looks one address up in the hierarchy : down into the enabled children in list
order, within the bounds of every ancestor and through aliases, to the first terminating
region. `renderMemoryRegion_spec` says that the renderer adds to a view what `resolve`
finds inside the clip.

Whether the renderer meets its assertion depends on the clips of the terminating regions
alone, in the order in which they are rendered (`clips`). A view is empty, filled by one
range over the whole space, or neither, and `Fill.step` follows it. The assertion fails when the
first clip that is not empty is the whole space, and a later one is the whole space again
(`FullTwice`).
-/

namespace QemuArm

open List

open AddressArith

/-! ## Pointwise resolution -/

/-- The region mapped at the address `a`, in the hierarchy under `p`. -/
def resolve (mem : Memory) : ℕ → MrPtr → ℤ → Bool → ℤ → Option Resolved
  | 0, _, _, _, _ => none
  | depth + 1, p, base, readonly, a =>
    let mr := mem p
    let base := base + mr.addr.toNat
    let readonly := readonly || mr.readonly
    if mr.enabled ∧ base ≤ a ∧ a < base + mr.size.toInt then
      match mr.aliasMr with
      | some orig =>
        resolve mem depth orig (base - (mem orig).addr.toNat - mr.aliasOffset.toNat) readonly a
      | none =>
        (mr.subregions.findSome? fun subregion => resolve mem depth subregion base readonly a).or
          (if mr.terminates then some ⟨p, a - base, mr.romdMode, readonly⟩ else none)
    else none

/-- `q` is rendered as a part of `p`. -/
def Child (mem : Memory) (q p : MrPtr) : Prop :=
  match (mem p).aliasMr with
  | some orig => q = orig
  | none => q ∈ (mem p).subregions

/-- The hierarchy under `p` is less than `depth` deep. -/
def Nested (mem : Memory) : ℕ → MrPtr → Prop
  | 0, _ => False
  | depth + 1, p => ∀ q, Child mem q p → Nested mem depth q

variable {mem : Memory} {depth : ℕ} {p : MrPtr} {clip : AddrRange ℤ} {s : Fill}
  {l : List (AddrRange ℤ)} {view : FlatView ℤ}

theorem Nested.succ : ∀ {depth : ℕ} {p : MrPtr}, Nested mem depth p → Nested mem (depth + 1) p
  | _ + 1, _, h => fun q hq => (h q hq).succ

theorem Nested.mono {depth'} (h : Nested mem depth p) (hle : depth ≤ depth') :
    Nested mem depth' p := by
  induction hle with
  | refl => exact h
  | step _ ih => exact ih.succ

/-- Regions have finitely many children, so a hierarchy without cycles has a depth. -/
theorem exists_nested (h : Acc (Child mem) p) : ∃ depth, Nested mem depth p := by
  induction h with
  | intro p _ ih =>
    have hlist : ∀ l : List MrPtr, (∀ q ∈ l, ∃ depth, Nested mem depth q) →
        ∃ depth, ∀ q ∈ l, Nested mem depth q := by
      intro l
      induction l with
      | nil => exact fun _ => ⟨0, by simp⟩
      | cons q l ihl =>
        intro hl
        obtain ⟨d, hd⟩ := hl q mem_cons_self
        obtain ⟨d', hd'⟩ := ihl fun q' hq' => hl q' (mem_cons_of_mem q hq')
        refine ⟨Max.max d d', fun q' hq' => ?_⟩
        rcases mem_cons.1 hq' with rfl | hq'
        · exact hd.mono (le_max_left d d')
        · exact (hd' q' hq').mono (le_max_right d d')
    unfold Child at ih
    cases hal : (mem p).aliasMr with
    | some orig =>
      obtain ⟨d, hd⟩ := ih orig (by rw [hal])
      exact ⟨d + 1, fun q hq => by simp only [Child, hal] at hq; exact hq ▸ hd⟩
    | none =>
      obtain ⟨d, hd⟩ := hlist (mem p).subregions fun q hq => ih q (by rw [hal]; exact hq)
      exact ⟨d + 1, fun q hq => by simp only [Child, hal] at hq; exact hd q hq⟩

/-! ## Clips -/

/-- The address space. -/
def fullRange : AddrRange ℤ := ⟨0, 2 ^ 64⟩

structure ClipOK (clip : AddrRange ℤ) : Prop where
  start : 0 ≤ clip.start
  size : 0 ≤ clip.size
  stop : clip.start + clip.size ≤ 2 ^ 64

/-- Clips of the terminating regions under `p`, in the order of rendering. -/
def clips (mem : Memory) : ℕ → MrPtr → ℤ → AddrRange ℤ → List (AddrRange ℤ)
  | 0, _, _, _ => []
  | depth + 1, p, base, clip =>
    let mr := mem p
    let base := base + mr.addr.toNat
    let tmp := ⟨base, mr.size.toInt⟩
    if mr.enabled && addrrangeIntersects tmp clip then
      let clip := addrrangeIntersection tmp clip
      match mr.aliasMr with
      | some orig =>
        clips mem depth orig (base - (mem orig).addr.toNat - mr.aliasOffset.toNat) clip
      | none =>
        mr.subregions.flatMap (fun subregion => clips mem depth subregion base clip) ++
          if mr.terminates then [clip] else []
    else []

theorem addrrangeIntersects_int {r1 r2 : AddrRange ℤ} : addrrangeIntersects r1 r2 ↔
    r1.start ≤ r2.start ∧ r2.start < r1.start + r1.size ∨
      r2.start ≤ r1.start ∧ r1.start < r2.start + r2.size := by
  simp [addrrangeIntersects, addrrangeContains]

theorem addrrangeIntersection_int (r1 r2 : AddrRange ℤ) : addrrangeIntersection r1 r2 =
    ⟨Max.max r1.start r2.start, Min.min (r1.start + r1.size) (r2.start + r2.size) -
      Max.max r1.start r2.start⟩ := by
  simp [addrrangeIntersection]

/-- The clip of a region that meets the clip of its parent. -/
theorem clipOK_intersection {tmp : AddrRange ℤ} (hsize : 0 ≤ tmp.size) (hc : ClipOK clip)
    (h : addrrangeIntersects tmp clip) : ClipOK (addrrangeIntersection tmp clip) := by
  obtain ⟨h1, h2, h3⟩ := hc
  rw [addrrangeIntersects_int] at h
  rw [addrrangeIntersection_int]
  refine ⟨?_, ?_, ?_⟩ <;> dsimp only <;> omega

/-! ## How far the view is filled -/

/-- A view is empty, or one range over the whole space, or something else; the renderer
has failed. -/
inductive Fill where
  | empty
  | part
  | full
  | failed
deriving DecidableEq

open Fill

/-- Rendering a terminating region with the given clip. -/
def Fill.step (s : Fill) (clip : AddrRange ℤ) : Fill :=
  if clip.size = 0 then s
  else match s with
    | .empty => if clip = fullRange then .full else .part
    | .part => .part
    | .full => if clip = fullRange then .failed else .full
    | .failed => .failed

def HasFill (view : FlatView ℤ) : Fill → Prop
  | .empty => view = []
  | .part => view ≠ [] ∧ ¬∃ r ∈ view, r.Full
  | .full => ∃ r ∈ view, r.Full
  | .failed => False

@[simp] theorem Fill.step_part (c : AddrRange ℤ) : part.step c = .part := by
  unfold step
  split <;> rfl

@[simp] theorem Fill.step_failed (c : AddrRange ℤ) : failed.step c = .failed := by
  unfold step
  split <;> rfl

theorem Fill.step_of_size_zero (s : Fill) {c} (h : c.size = 0) : s.step c = s :=
  if_pos h

theorem Fill.step_empty {c} (h : c.size ≠ 0) :
    empty.step c = if c = fullRange then .full else .part := if_neg h

theorem Fill.step_full (c : AddrRange ℤ) :
    full.step c = if c = fullRange then .failed else .full := by
  unfold step
  by_cases h : c.size = 0
  · rw [if_pos h, if_neg]
    rintro rfl
    exact absurd h (by decide)
  · rw [if_neg h]

theorem foldl_step_fixed (h : ∀ c, s.step c = s) (l : List (AddrRange ℤ)) : l.foldl step s = s := by
  induction l with
  | nil => rfl
  | cons c l ih => rw [foldl_cons, h, ih]

theorem foldl_step_full : l.foldl step .full = .failed ↔ fullRange ∈ l := by
  induction l with
  | nil => simp
  | cons c l ih =>
    rw [foldl_cons, step_full]
    split_ifs with hc
    · rw [foldl_step_fixed step_failed]
      simp [hc]
    · rw [ih]
      simp [Ne.symm hc]

/-- The first clip that is not empty is the whole space, and so is a later one. -/
def FullTwice (l : List (AddrRange ℤ)) : Prop :=
  ∃ rest, l.filter (fun c => c.size ≠ 0) = fullRange :: rest ∧ fullRange ∈ rest

theorem foldl_step_empty : l.foldl step .empty = .failed ↔ FullTwice l := by
  induction l with
  | nil => simp [FullTwice]
  | cons c l ih =>
    rw [foldl_cons]
    by_cases hz : c.size = 0
    · rw [step_of_size_zero _ hz, ih, FullTwice, FullTwice, filter_cons_of_neg (by simp [hz])]
    · rw [step_empty hz, FullTwice, filter_cons_of_pos (by simp [hz])]
      by_cases hc : c = fullRange
      · subst hc
        simp [foldl_step_full, hz]
      · rw [if_neg hc, foldl_step_fixed step_part]
        simp [hc]

/-! ## The renderer -/

/-- The result of rendering into `view` : the bound on the depth was met, or the assertion
failed, or the view maps `found` where it mapped nothing. -/
def Rendered (res : Except RenderError (FlatView ℤ)) (s : Fill) (view : FlatView ℤ)
    (found : ℤ → Option Resolved) : Prop :=
  res = .error .tooDeep ∨ s = .failed ∧ res = .error .assertFailed ∨
    ∃ view', res = .ok view' ∧ HasFill view' s ∧ ViewOK view' ∧
      ∀ a, viewAt view' a = (viewAt view a).or (found a)

theorem rendered_self {found} (hok : ViewOK view) (hs : HasFill view s) (hf : ∀ a, found a = none) :
    Rendered (.ok view) s view found :=
  .inr (.inr ⟨view, rfl, hs, hok, fun a => by rw [hf, Option.or_none]⟩)

/-- Rendering after rendering. -/
theorem Rendered.bind {res found found' f} (h : Rendered res s view found)
    (hf : ∀ view', HasFill view' s → ViewOK view' →
      Rendered (f view') (l.foldl step s) view' found') :
    Rendered (res >>= f) (l.foldl step s) view fun a => (found a).or (found' a) := by
  rcases h with rfl | ⟨rfl, rfl⟩ | ⟨view', rfl, hs, hok, hat⟩
  · exact .inl rfl
  · exact .inr (.inl ⟨foldl_step_fixed step_failed l, rfl⟩)
  · rcases hf view' hs hok with hdeep | ⟨hfail, herr⟩ | ⟨view'', hrun, hs', hok', hat'⟩
    · exact .inl hdeep
    · exact .inr (.inl ⟨hfail, herr⟩)
    · refine .inr (.inr ⟨view'', hrun, hs', hok', fun a => ?_⟩)
      rw [hat', hat, Option.or_assoc]

/-- The last part of `render_memory_region`. -/
theorem renderGaps_rendered {fr origin} (hok : ViewOK view)
    (hs : HasFill view s) (hc : ClipOK clip) (ho : origin ≤ clip.start)
    (hsz : clip.start + clip.size - origin ≤ 2 ^ 64) :
    Rendered (renderGaps fr view clip.start clip.size (BitVec.ofInt 64 (clip.start - origin)))
      (s.step clip) view (gapAt fr origin clip.start clip.size) := by
  obtain ⟨h0, hr, hle⟩ := hc
  have hfull : clip = fullRange ↔ clip.size = 2 ^ 64 := by
    refine ⟨fun h => by rw [h]; rfl, fun h => ?_⟩
    have hstart : clip.start = 0 := by omega
    exact AddrRange.ext hstart h
  have hspec := @renderGaps_spec fr origin view clip.start clip.size hok h0 hr hle ho hsz
  cases s with
  | empty =>
    have hnil : view = [] := hs
    subst hnil
    obtain ⟨view', hrun, hfill⟩ := hspec (by simp)
    refine .inr (.inr ⟨view', hrun, ?_, hfill.ok, hfill.viewAt_eq⟩)
    by_cases hz : clip.size = 0
    · have : view' = [] := by simpa [renderGaps, hz] using hrun.symm
      rw [step_of_size_zero _ hz, this]
      rfl
    · have : view' = [insertedAt fr origin clip.start clip.size] := by
        simpa [renderGaps, hz, insertedAt] using hrun.symm
      rw [step_empty hz, this]
      split_ifs with hcf
      · exact ⟨_, mem_singleton_self _, congrArg AddrRange.start hcf, congrArg AddrRange.size hcf⟩
      · refine ⟨cons_ne_nil _ _, ?_⟩
        rintro ⟨r, hr', hf⟩
        rw [mem_singleton.1 hr'] at hf
        exact hcf (hfull.2 hf.2)
  | part =>
    obtain ⟨view', hrun, hfill⟩ := hspec fun h => hs.2 h.2
    refine .inr (.inr ⟨view', hrun, ?_, hfill.ok, hfill.viewAt_eq⟩)
    obtain ⟨r, hr'⟩ := exists_mem_of_ne_nil view hs.1
    rw [step_part]
    refine ⟨ne_nil_of_mem (hfill.kept r hr'), ?_⟩
    rintro ⟨t, ht, hf⟩
    have hrt := hfill.kept r hr'
    rw [hfill.ok.eq_singleton ht hf, mem_singleton] at hrt
    exact hs.2 ⟨r, hr', hrt ▸ hf⟩
  | full =>
    obtain ⟨r, hr', hf⟩ := hs
    rw [step_full]
    by_cases hcf : clip = fullRange
    · rw [hok.eq_singleton hr' hf, hcf]
      exact .inr (.inl ⟨rfl, renderGaps_full hf _⟩)
    · obtain ⟨view', hrun, hfill⟩ := hspec fun h => hcf (hfull.2 h.1)
      rw [if_neg hcf]
      exact .inr (.inr ⟨view', hrun, ⟨r, hfill.kept r hr', hf⟩, hfill.ok, hfill.viewAt_eq⟩)
  | failed => exact absurd hs id

/-- What is found inside a clip. -/
def within (clip : AddrRange ℤ) (found : ℤ → Option Resolved) (a : ℤ) : Option Resolved :=
  if clip.start ≤ a ∧ a < clip.start + clip.size then found a else none

theorem within_or (clip : AddrRange ℤ) (f g : ℤ → Option Resolved) :
    (within clip fun a => (f a).or (g a)) = fun a => (within clip f a).or (within clip g a) := by
  funext a
  unfold within
  split <;> rfl

/-- Rendering the subregions of a region, in list order. -/
theorem renderSubregions_rendered {α : Type}
    {render : FlatView ℤ → α → Except RenderError (FlatView ℤ)} {clipsOf : α → List (AddrRange ℤ)}
    {found : α → ℤ → Option Resolved} : ∀ (l : List α) (view : FlatView ℤ) (s : Fill),
    (∀ q ∈ l, ∀ view s, ViewOK view → HasFill view s →
      Rendered (render view q) ((clipsOf q).foldl step s) view (within clip (found q))) →
    ViewOK view → HasFill view s →
    Rendered (l.foldlM render view) ((l.flatMap clipsOf).foldl step s) view
      (within clip fun a => l.findSome? fun q => found q a)
  | [], view, s, _, hok, hs => rendered_self hok hs fun a => by simp [within]
  | q :: l, view, s, h, hok, hs => by
    have hq := h q mem_cons_self view s hok hs
    have hl := fun view' hs' hok' => renderSubregions_rendered l view'
      ((clipsOf q).foldl step s) (fun q' hq' => h q' (mem_cons_of_mem q hq')) hok' hs'
    have hfound : (fun a => (q :: l).findSome? fun q => found q a) =
        fun a => (found q a).or (l.findSome? fun q => found q a) := by
      funext a
      cases hfa : found q a <;> simp [hfa]
    rw [flatMap_cons, foldl_append, hfound, within_or]
    exact hq.bind hl

section Clipped

variable {tmp clip : AddrRange ℤ} {found found' : ℤ → Option Resolved}

section

variable (h : ∀ a, ¬(tmp.start ≤ a ∧ a < tmp.start + tmp.size) → found a = none)
include h

/-- What is found below a region is found inside its part of the clip. -/
theorem within_intersection (h' : ∀ a, tmp.start ≤ a → a < tmp.start + tmp.size → found a = found'
      a) : within clip found = within (addrrangeIntersection tmp clip) found' := by
  funext a
  rw [addrrangeIntersection_int]
  unfold within
  dsimp only
  by_cases ha : tmp.start ≤ a ∧ a < tmp.start + tmp.size
  · rw [h' a ha.1 ha.2]
    refine if_congr ?_ rfl rfl
    omega
  · rw [h a ha, ite_self, if_neg (by omega)]

theorem within_eq_none (hn : ¬addrrangeIntersects tmp clip) (a : ℤ) :
    within clip found a = none := by
  rw [addrrangeIntersects_int] at hn
  unfold within
  split
  · exact h a (by omega)
  · rfl

end

/-- The terminating region itself, after its subregions. -/
theorem renderSelf_rendered {view s p origin
    mask romdMode readonly} (hok : ViewOK view) (hs : HasFill view s)
    (hc : ClipOK clip) (ho : origin ≤ clip.start) (hlt : clip.start - origin < 2 ^ 64)
    (hsz : clip.start + clip.size - origin ≤ 2 ^ 64) :
    Rendered (do
        let offset ← assert64 (clip.start - origin)
        renderGaps ⟨p, offset, clip, mask, romdMode, readonly⟩ view clip.start clip.size offset)
      (s.step clip) view (within clip fun a => some ⟨p, a - origin, romdMode, readonly⟩) := by
  rw [assert64_int (by omega) hlt]
  exact renderGaps_rendered hok hs hc ho hsz

end Clipped

theorem resolve_inside {base a : ℤ} {readonly : Bool} (hen : (mem p).enabled)
    (h0 : base + (mem p).addr.toNat ≤ a) (h1 : a < base + (mem p).addr.toNat + (mem p).size.toInt) :
    resolve mem (depth + 1) p base readonly a = match (mem p).aliasMr with
      | some orig =>
        resolve mem depth orig
          (base + (mem p).addr.toNat - (mem orig).addr.toNat - (mem p).aliasOffset.toNat)
          (readonly || (mem p).readonly) a
      | none =>
        ((mem p).subregions.findSome? fun q =>
          resolve mem depth q (base + (mem p).addr.toNat) (readonly || (mem p).readonly) a).or
          (if (mem p).terminates then some ⟨p, a - (base + (mem p).addr.toNat), (mem p).romdMode,
            readonly || (mem p).readonly⟩ else none) :=
  if_pos ⟨hen, h0, h1⟩

theorem resolve_outside {base a : ℤ} {readonly : Bool} (h : ¬((mem p).enabled ∧ base + (mem
      p).addr.toNat ≤ a ∧ a < base + (mem p).addr.toNat + (mem p).size.toInt)) :
    resolve mem (depth + 1) p base readonly a = none := if_neg h

/-- The renderer adds what `resolve` finds inside the clip. -/
theorem renderMemoryRegion_spec : ∀ (depth : ℕ) (view : FlatView ℤ) (p : MrPtr)
    (base : ℤ) (clip : AddrRange ℤ) (readonly : Bool) (s : Fill), ViewOK view → HasFill view s →
    ClipOK clip →
    Rendered (renderMemoryRegion mem depth view p base clip readonly)
      ((clips mem depth p base clip).foldl step s) view
      (within clip (resolve mem depth p base readonly))
  | 0, view, p, base, clip, readonly, s, hok, hs, _ => by
    rw [renderMemoryRegion]
    split
    · exact rendered_self hok hs fun a => by simp [within, resolve]
    · exact .inl rfl
  | depth + 1, view, p, base, clip, readonly, s, hok, hs, hc => by
    have hout := @resolve_outside mem depth p base
    have hins := @resolve_inside mem depth p base
    rw [renderMemoryRegion, clips]
    simp only [int_add, int_make64, int_ofInt128, int_sub]
    generalize base + ((mem p).addr.toNat : ℤ) = base at hout hins ⊢
    have hsize0 := (mem p).size_nonneg
    have hsize1 := (mem p).size_le
    by_cases hen : (mem p).enabled
    swap
    · simp only [hen]
      refine rendered_self hok hs fun a => ?_
      rw [within, hout fun h => hen h.1, ite_self]
    by_cases hi : addrrangeIntersects ⟨base, (mem p).size.toInt⟩ clip
    swap
    · simp only [hen, hi]
      exact rendered_self hok hs (within_eq_none (fun a ha => hout fun h => ha h.2) hi)
    have hc' := clipOK_intersection hsize0 hc hi
    rw [@within_intersection ⟨base, (mem p).size.toInt⟩ clip _ _ (fun a ha => hout fun h => ha h.2)
      fun a ha ha' => hins hen ha ha']
    simp only [hen, hi, Bool.not_true, Bool.false_eq_true, if_false, Bool.and_true, if_true]
    cases hal : (mem p).aliasMr with
    | some orig =>
      exact renderMemoryRegion_spec depth view orig _ _ _ s hok hs hc'
    | none =>
      have hstart : base ≤ (addrrangeIntersection ⟨base, (mem p).size.toInt⟩ clip).start ∧
          (addrrangeIntersection ⟨base, (mem p).size.toInt⟩ clip).start - base < 2 ^ 64 ∧
          (addrrangeIntersection ⟨base, (mem p).size.toInt⟩ clip).start +
            (addrrangeIntersection ⟨base, (mem p).size.toInt⟩ clip).size - base ≤ 2 ^ 64 := by
        rw [addrrangeIntersects_int] at hi
        rw [addrrangeIntersection_int]
        dsimp only at hi ⊢
        omega
      generalize addrrangeIntersection ⟨base, (mem p).size.toInt⟩ clip = clip at hc' hstart ⊢
      have hsub := renderSubregions_rendered (mem p).subregions view s
        (fun q _ view s hok hs => renderMemoryRegion_spec depth view q base clip
          (readonly || (mem p).readonly) s hok hs hc') hok hs
      dsimp only
      rw [foldl_append, within_or]
      refine hsub.bind fun view' hs' hok' => ?_
      cases (mem p).terminates with
      | false => exact rendered_self hok' hs' fun a => by simp [within]
      | true => exact renderSelf_rendered hok' hs' hc' hstart.1 hstart.2.1 hstart.2.2

/-! ## Enough depth -/

section Depth

variable {α : Type} [AddressArith α]

theorem bind_ne_tooDeep {β γ : Type} {x : Except RenderError β} {f : β → Except RenderError γ}
    (hx : x ≠ .error .tooDeep) (hf : ∀ b, f b ≠ .error .tooDeep) : (x >>= f) ≠ .error .tooDeep := by
  cases x with
  | error e => exact fun h => hx (by cases h; rfl)
  | ok b => exact hf b

theorem foldlM_ne_tooDeep {β γ : Type} {f : γ → β → Except RenderError γ} :
    ∀ (l : List β) (c : γ), (∀ b ∈ l, ∀ c, f c b ≠ .error .tooDeep) → l.foldlM f c ≠ .error .tooDeep
  | [], c, _ => nofun
  | b :: l, c, h => by
    exact bind_ne_tooDeep (h b mem_cons_self c) fun c' =>
      foldlM_ne_tooDeep l c' fun b' hb' => h b' (mem_cons_of_mem b hb')

theorem assert64_ne_tooDeep (a : α) : assert64 a ≠ .error .tooDeep := by
  unfold assert64
  split <;> nofun

theorem passRange_ne_tooDeep {rest : α → α → Hwaddr → Except RenderError (FlatView α)}
    {inserted : FlatView α} {r : FlatRange α} {base remain : α} {offset : Hwaddr}
    (h : ∀ base remain offset, rest base remain offset ≠ .error .tooDeep) :
    passRange rest inserted r base remain offset ≠ .error .tooDeep :=
  bind_ne_tooDeep (assert64_ne_tooDeep _) fun _ => bind_ne_tooDeep (h _ _ _) fun _ => nofun

theorem renderGaps_ne_tooDeep {fr : FlatRange α} : ∀ (view : FlatView α) (base remain : α)
    (offset : Hwaddr), renderGaps fr view base remain offset ≠ .error .tooDeep
  | [], base, remain, offset => by
    rw [renderGaps]
    split <;> simp
  | r :: view, base, remain, offset => by
    have hrest := @renderGaps_ne_tooDeep fr view
    rw [renderGaps]
    split
    · simp
    split
    · exact bind_ne_tooDeep (hrest base remain offset) fun _ => by simp
    split
    · exact bind_ne_tooDeep (assert64_ne_tooDeep _) fun _ => passRange_ne_tooDeep hrest
    · exact passRange_ne_tooDeep hrest

/-- The bound on the depth is not met when the hierarchy is not as deep. -/
theorem renderMemoryRegion_ne_tooDeep {mem : Memory} : ∀ (depth : ℕ) (view : FlatView α)
    (p : MrPtr) (base : α) (clip : AddrRange α) (readonly : Bool), Nested mem depth p →
    renderMemoryRegion mem depth view p base clip readonly ≠ .error .tooDeep
  | depth + 1, view, p, base, clip, readonly, hn => by
    rw [renderMemoryRegion]
    dsimp only
    split
    · nofun
    split
    · nofun
    cases hal : (mem p).aliasMr with
    | some orig =>
      exact renderMemoryRegion_ne_tooDeep depth view orig _ _ _ (hn orig (by rw [Child, hal]))
    | none =>
      have hsub := fun q (hq : q ∈ (mem p).subregions) view =>
        renderMemoryRegion_ne_tooDeep depth view q (add base (make64 (mem p).addr))
          (addrrangeIntersection ⟨add base (make64 (mem p).addr), ofInt128 (mem p).size⟩ clip)
          (readonly || (mem p).readonly) (hn q (by rw [Child, hal]; exact hq))
      refine bind_ne_tooDeep (foldlM_ne_tooDeep (mem p).subregions view hsub) fun view' => ?_
      split
      · nofun
      · exact bind_ne_tooDeep (assert64_ne_tooDeep _) fun _ => renderGaps_ne_tooDeep _ _ _ _

end Depth

end QemuArm
