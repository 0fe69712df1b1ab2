import Mathlib

/-!
# Runs of a guarded transition function

`step i s` is the state after the operation `i`, or `none` when the program stops there.
`Reach step ok s₀ s` : some sequence of operations leads from `s₀` to `s`, and every
operation is `ok` in the state that it starts from.
-/

variable {σ ι : Type}

/-- The states reached by operations that are `ok` where they start. -/
inductive Reach (step : ι → σ → Option σ) (ok : σ → ι → Prop) (s₀ : σ) : σ → Prop
  | refl : Reach step ok s₀ s₀
  | tail {s s' : σ} {i : ι} : Reach step ok s₀ s → ok s i → step i s = some s' →
      Reach step ok s₀ s'

namespace Reach

variable {step : ι → σ → Option σ} {ok : σ → ι → Prop} {s₀ s : σ}

/-- What holds at first and is kept by every step holds in every state reached. -/
theorem invariant {inv : σ → Prop} (h0 : inv s₀)
    (hstep : ∀ s i s', inv s → ok s i → step i s = some s' → inv s') (h : Reach step ok s₀ s) :
    inv s := by
  induction h with
  | refl => exact h0
  | tail _ hok hs ih => exact hstep _ _ _ ih hok hs

theorem trans {s' : σ} (h : Reach step ok s₀ s) (h' : Reach step ok s s') :
    Reach step ok s₀ s' := by
  induction h' with
  | refl => exact h
  | tail _ hok hs ih => exact ih.tail hok hs

/-- A list of operations that are always `ok`, run one after the other. -/
theorem foldlM : ∀ (is : List ι) {s s' : σ}, (∀ i ∈ is, ∀ s, ok s i) → Reach step ok s₀ s →
    is.foldlM (fun s i => step i s) s = some s' → Reach step ok s₀ s'
  | [], _, _, _, h, hrun => by
    cases hrun
    exact h
  | i :: is, s, s', hok, h, hrun => by
    rw [List.foldlM_cons, Option.bind_eq_bind, Option.bind_eq_some_iff] at hrun
    obtain ⟨s₁, hs₁, hrest⟩ := hrun
    exact foldlM is (fun j hj => hok j (List.mem_cons_of_mem i hj))
      (h.tail (hok i List.mem_cons_self s) hs₁) hrest

/-- The step, with a look at `ok` before it. -/
def checked (step : ι → σ → Option σ) (ok : σ → ι → Prop) [∀ s i, Decidable (ok s i)] (s : σ)
    (i : ι) : Option σ := if ok s i then step i s else none

/-- A list of operations that are checked one after the other. -/
theorem foldlM_checked {ok' : σ → ι → Prop} [∀ s i, Decidable (ok' s i)]
    (himp : ∀ s i, ok' s i → ok s i) : ∀ (is : List ι) {s s' : σ},
    Reach step ok s₀ s → is.foldlM (checked step ok') s = some s' → Reach step ok s₀ s'
  | [], _, _, h, hrun => by
    cases hrun
    exact h
  | i :: is, s, s', h, hrun => by
    obtain ⟨s₁, hs₁, hrest⟩ := Option.bind_eq_some_iff.1 hrun
    obtain ⟨hok, hs₁⟩ := Option.ite_none_right_eq_some.1 hs₁
    exact foldlM_checked himp is (h.tail (himp s i hok) hs₁) hrest

end Reach
