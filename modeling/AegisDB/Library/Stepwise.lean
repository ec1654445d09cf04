import Mathlib.Tactic

/-!
# Lists built step by step

A list is built step by step when every element may follow the elements before it.  The front of
such a list is one, and it grows at its end.
-/

namespace AegisDB

variable {α : Type*} {P Q : List α → α → Prop} {l l' : List α} {a : α}

/-- Every element of the list may follow the elements before it. -/
def Stepwise (P : List α → α → Prop) (l : List α) : Prop :=
  ∀ l₁ a l₂, l = l₁ ++ a :: l₂ → P l₁ a

namespace Stepwise

theorem nil : Stepwise P [] := by
  intro l₁ a l₂ h
  simp at h

theorem of_append (h : Stepwise P (l ++ l')) : Stepwise P l := by
  intro l₁ a l₂ hl
  refine h l₁ a (l₂ ++ l') ?_
  rw [hl, List.append_assoc]
  rfl

theorem of_isPrefix (h : Stepwise P l') (hl : l <+: l') : Stepwise P l := by
  obtain ⟨l₂, rfl⟩ := hl
  exact h.of_append

theorem last (h : Stepwise P (l ++ [a])) : P l a :=
  h l a [] rfl

theorem concat (h : Stepwise P l) (ha : P l a) : Stepwise P (l ++ [a]) := by
  intro l₁ b l₂ hl
  rcases List.append_eq_append_iff.mp hl with ⟨m, rfl, hm⟩ | ⟨m, rfl, hm⟩
  · cases m with
    | nil =>
      obtain ⟨rfl, -⟩ := List.cons.inj hm
      simpa using ha
    | cons c m => simp at hm
  · cases m with
    | nil =>
      obtain ⟨rfl, -⟩ := List.cons.inj hm
      simpa using ha
    | cons c m =>
      obtain ⟨rfl, -⟩ := List.cons.inj hm
      exact h l₁ b m rfl

theorem append (h : Stepwise P l) (h' : ∀ a ∈ l', ∀ l, P l a) : Stepwise P (l ++ l') := by
  induction l' using List.reverseRecOn with
  | nil => rwa [List.append_nil]
  | append_singleton l' a ih =>
    rw [← List.append_assoc]
    refine (ih fun b hb => h' b (List.mem_append_left _ hb)).concat ?_
    exact h' a (by simp) _

end Stepwise

end AegisDB
