import Mathlib

/-!
# Lists that share no entry

A family of lists where every entry stands once, in one list. That is kept when lists lose
entries (`DisjointLists.sublist`), when a new entry is added (`DisjointLists.concat`) and when
the first entries of one list move to another (`DisjointLists.move`).
-/

open List

variable {ι α : Type*} {l l' : ι → List α}

structure DisjointLists (l : ι → List α) : Prop where
  nodup : ∀ p, (l p).Nodup
  unique : ∀ p q w, w ∈ l p → w ∈ l q → p = q

namespace DisjointLists

variable {p q : ι} {w : α} {next left : List α}

theorem mem_concat (hp : l' p = l p ++ [w]) (hne : ∀ q ≠ p, l' q = l q) {v} (hv : v ∈ l' q) :
    v ∈ l q ∨ v = w ∧ q = p := by
  by_cases hq : q = p
  · subst hq
    rw [hp, mem_append, mem_singleton] at hv
    exact hv.imp id fun hv => ⟨hv, rfl⟩
  · exact .inl (hne q hq ▸ hv)

variable (h : DisjointLists l)
include h

theorem sublist (hsub : ∀ p, (l' p).Sublist (l p)) : DisjointLists l' :=
  ⟨fun p => (h.nodup p).sublist (hsub p),
    fun p q w hp hq => h.unique p q w ((hsub p).subset hp) ((hsub q).subset hq)⟩

theorem concat (hw : ∀ q, w ∉ l q) (hp : l' p = l p ++ [w]) (hne : ∀ q ≠ p, l' q = l q) :
    DisjointLists l' := by
  refine ⟨fun q => ?_, fun q r v hq hr => ?_⟩
  · by_cases hq : q = p
    · subst hq
      rw [hp]
      exact (h.nodup q).append (nodup_singleton w) (by simpa using hw q)
    · exact hne q hq ▸ h.nodup q
  · rcases mem_concat hp hne hq with hq | ⟨rfl, rfl⟩
    · rcases mem_concat hp hne hr with hr | ⟨rfl, -⟩
      · exact h.unique q r v hq hr
      · exact absurd hq (hw q)
    · rcases mem_concat hp hne hr with hr | ⟨-, rfl⟩
      · exact absurd hr (hw r)
      · rfl

variable (hpq : p ≠ q) (hp : l p = next ++ left) (hp' : l' p = left) (hq : l' q = l q ++ next)
  (hne : ∀ r, r ≠ p → r ≠ q → l' r = l r)
include hpq hp hp' hq hne

/-- Where an entry was before the move. -/
theorem mem_move {r : ι} (hw : w ∈ l' r) :
    ∃ r', w ∈ l r' ∧ (r = r' ∧ w ∉ next ∨ r = q ∧ r' = p ∧ w ∈ next) := by
  have hnext : w ∈ next → w ∈ l p := fun hn => hp ▸ mem_append_left left hn
  by_cases hrp : r = p
  · subst hrp
    rw [hp'] at hw
    refine ⟨r, hp ▸ mem_append_right next hw, .inl ⟨rfl, fun hn => ?_⟩⟩
    exact disjoint_of_nodup_append (hp ▸ h.nodup r) hn hw
  have hold : w ∈ l r → ∃ r', w ∈ l r' ∧ (r = r' ∧ w ∉ next ∨ r = q ∧ r' = p ∧ w ∈ next) :=
    fun hw => ⟨r, hw, .inl ⟨rfl, fun hn => hrp (h.unique r p w hw (hnext hn))⟩⟩
  by_cases hrq : r = q
  · subst hrq
    rw [hq, mem_append] at hw
    exact hw.elim hold fun hn => ⟨p, hnext hn, .inr ⟨rfl, rfl, hn⟩⟩
  · exact hold (hne r hrp hrq ▸ hw)

theorem move : DisjointLists l' := by
  have hnodup : (next ++ left).Nodup := hp ▸ h.nodup p
  refine ⟨fun r => ?_, fun r t w hr ht => ?_⟩
  · by_cases hrp : r = p
    · rw [hrp, hp']
      exact (nodup_append.1 hnodup).2.1
    by_cases hrq : r = q
    · rw [hrq, hq]
      refine (h.nodup q).append (nodup_append.1 hnodup).1 fun w hw hn => hpq ?_
      exact h.unique p q w (hp ▸ mem_append_left left hn) hw
    · exact hne r hrp hrq ▸ h.nodup r
  · obtain ⟨r', hr', hrc⟩ := h.mem_move hpq hp hp' hq hne hr
    obtain ⟨t', ht', htc⟩ := h.mem_move hpq hp hp' hq hne ht
    have heq := h.unique r' t' w hr' ht'
    rcases hrc with ⟨rfl, hn⟩ | ⟨rfl, -, hn⟩
    · rcases htc with ⟨rfl, -⟩ | ⟨-, -, hn'⟩
      · exact heq
      · exact absurd hn' hn
    · rcases htc with ⟨-, hn'⟩ | ⟨rfl, -, -⟩
      · exact absurd hn hn'
      · rfl

end DisjointLists
