import Mathlib.Data.List.Basic
import Mathlib.Tactic

/-!
# Texts with separators

Texts that are written one after the other with a separator between them can be told apart once it
is known how often the separator is in each of them.  Nothing less will do in general: where the
separator may be part of a text, the same letters can be cut in more than one way.
-/

namespace AegisDB

variable {α : Type*} [DecidableEq α] {c : α}

/-- A separator that is in two texts equally often ends them at the same place. -/
theorem append_cons_inj_of_count {s s' t t' : List α} (hcount : s.count c = s'.count c)
    (h : s ++ c :: t = s' ++ c :: t') : s = s' ∧ t = t' := by
  induction s generalizing s' with
  | nil =>
    cases s' with
    | nil => exact ⟨rfl, (List.cons.inj h).2⟩
    | cons d s' =>
      obtain ⟨rfl, -⟩ := List.cons.inj h
      simp at hcount
  | cons d s ih =>
    cases s' with
    | nil =>
      obtain ⟨rfl, -⟩ := List.cons.inj h
      simp at hcount
    | cons d' s' =>
      obtain ⟨rfl, hrest⟩ := List.cons.inj h
      have hcount' : s.count c = s'.count c := by
        rw [List.count_cons, List.count_cons] at hcount
        omega
      obtain ⟨rfl, rfl⟩ := ih hcount' hrest
      exact ⟨rfl, rfl⟩

/-- Texts in each of which the separator is as often as in its counterpart are the same as soon as
they are written alike. -/
theorem intercalate_inj_of_count {l l' : List (List α)}
    (hcount : l.map (List.count c) = l'.map (List.count c))
    (h : [c].intercalate l = [c].intercalate l') : l = l' := by
  induction l generalizing l' with
  | nil => exact (List.map_eq_nil_iff.mp hcount.symm).symm
  | cons s l ih =>
    cases l' with
    | nil => cases hcount
    | cons s' l' =>
      rw [List.map_cons, List.map_cons, List.cons.injEq] at hcount
      obtain ⟨hhead, htail⟩ := hcount
      cases l with
      | nil =>
        have hnil : l' = [] := List.map_eq_nil_iff.mp htail.symm
        subst hnil
        rw [List.intercalate_singleton, List.intercalate_singleton] at h
        rw [h]
      | cons t l =>
        cases l' with
        | nil => cases htail
        | cons t' l' =>
          rw [List.intercalate_cons_cons, List.intercalate_cons_cons, List.append_assoc,
            List.append_assoc, List.singleton_append, List.singleton_append] at h
          obtain ⟨rfl, hrest⟩ := append_cons_inj_of_count hhead h
          rw [ih htail hrest]

end AegisDB
