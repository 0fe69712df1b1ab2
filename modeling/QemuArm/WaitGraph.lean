import Mathlib

/-!
# Wait graphs

`W x y` : `x` waits for `y`. Without a cycle somebody in a nonempty finite set that is
closed under waiting does not wait (`exists_not_waiting`), and starting to wait for
somebody who does not wait makes no cycle (`acyclic_insert`).
-/

open Relation

variable {α : Type*} {W W' : α → α → Prop}

/-- Nobody waits for themselves, through others or not. -/
def WaitAcyclic (W : α → α → Prop) : Prop := ∀ x, ¬TransGen W x x

theorem WaitAcyclic.mono (h : WaitAcyclic W) (hle : ∀ x y, W' x y → W x y) : WaitAcyclic W' :=
  fun x hx => h x (TransGen.mono hle x x hx)

/-- A path that does not end in `b` does not use a new edge to `b`, if nothing leaves `b`. -/
theorem transGen_of_insert {a b : α} (hb : ∀ y, ¬W b y) {x y : α}
    (h : TransGen (fun u v => W u v ∨ u = a ∧ v = b) x y) (hy : y ≠ b) : TransGen W x y := by
  induction h with
  | single h => exact TransGen.single (h.resolve_right fun h => hy h.2)
  | tail _ h ih =>
    have hedge := h.resolve_right fun h => hy h.2
    exact (ih fun heq => hb _ (heq ▸ hedge)).tail hedge

theorem acyclic_insert (h : WaitAcyclic W) {a b : α} (hab : a ≠ b) (hb : ∀ y, ¬W b y) :
    WaitAcyclic fun u v => W u v ∨ u = a ∧ v = b := by
  intro x hx
  by_cases hxb : x = b
  · subst hxb
    obtain ⟨y, hy, -⟩ := TransGen.head'_iff.1 hx
    exact hy.elim (hb y) fun h => hab h.1.symm
  · exact h x (transGen_of_insert hb hx hxb)

theorem exists_not_waiting (h : WaitAcyclic W) {l : List α} (hne : l ≠ [])
    (hclosed : ∀ x ∈ l, ∀ y, W x y → y ∈ l) : ∃ x ∈ l, ∀ y, ¬W x y := by
  -- on the finitely many members the transitive closure is well founded, so it has a minimum
  let R : {x // x ∈ l} → {x // x ∈ l} → Prop := fun y x => TransGen W x.1 y.1
  have hfin : Finite {x // x ∈ l} := l.finite_toSet.to_subtype
  have hirr : Std.Irrefl R := ⟨fun x => h x.1⟩
  have hwf : WellFounded R := Finite.wellFounded_of_trans_of_irrefl R
  obtain ⟨x₀, hx₀⟩ := List.exists_mem_of_ne_nil l hne
  obtain ⟨⟨x, hx⟩, -, hmin⟩ := hwf.has_min Set.univ ⟨⟨x₀, hx₀⟩, trivial⟩
  exact ⟨x, hx, fun y hy => hmin ⟨y, hclosed x hx y hy⟩ trivial (TransGen.single hy)⟩
