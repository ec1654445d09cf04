import Mathlib.Data.List.Basic
import Mathlib.Tactic

/-!
# Prefixes of sorted lists

Lists with the same elements may be sorted into different lists where elements tie.  A prefix of
the sorted list has the same elements whichever way ties fall, if its elements come before all
others (`take_mergeSort_perm`), and so does the window between two such prefixes
(`window_perm`).  The order needs to be one on the elements of the list only.
-/

namespace AegisDB

namespace SortedPrefix

variable {α : Type*}

/-- A comparison is a total preorder on the elements of a list. -/
structure Orders (le : α → α → Bool) (l : List α) : Prop where
  trans : ∀ a ∈ l, ∀ b ∈ l, ∀ c ∈ l, le a b = true → le b c = true → le a c = true
  total : ∀ a ∈ l, ∀ b ∈ l, le a b = true ∨ le b a = true

theorem Orders.of_perm {le : α → α → Bool} {l l' : List α} (h : Orders le l) (hp : l'.Perm l) :
    Orders le l' where
  trans a ha b hb c hc := h.trans a (hp.mem_iff.mp ha) b (hp.mem_iff.mp hb) c (hp.mem_iff.mp hc)
  total a ha b hb := h.total a (hp.mem_iff.mp ha) b (hp.mem_iff.mp hb)

theorem Orders.pairwise_mergeSort {le : α → α → Bool} {l : List α} (h : Orders le l) :
    (l.mergeSort le).Pairwise fun a b => le a b = true := by
  -- the elements with their membership are ordered everywhere
  have hmap : (l.attach.mergeSort fun a b => le a.1 b.1).map Subtype.val = l.mergeSort le := by
    rw [List.map_mergeSort (s := le) fun a _ b _ => rfl, List.attach_map_subtype_val]
  rw [← hmap, List.pairwise_map]
  refine List.pairwise_mergeSort (fun a b c hab hbc => ?_) (fun a b => ?_) l.attach
  · exact h.trans a.1 a.2 b.1 b.2 c.1 c.2 hab hbc
  · exact Bool.or_eq_true_iff.mpr (h.total a.1 a.2 b.1 b.2)

/-- In a sorted list, elements that come before all others are in front. -/
theorem take_perm_of_pairwise {r : α → α → Prop} {l front rest : List α}
    (hp : l.Perm (front ++ rest)) (hs : l.Pairwise r)
    (h : ∀ a ∈ front, ∀ b ∈ rest, ¬ r b a) : (l.take front.length).Perm front := by
  induction l generalizing front with
  | nil =>
    have hnil : front ++ rest = [] := List.nil_perm.mp hp
    rw [List.append_eq_nil_iff] at hnil
    rw [hnil.1]
    exact List.Perm.refl _
  | cons x l ih =>
    obtain ⟨hx, hs⟩ := List.pairwise_cons.mp hs
    by_cases hmem : x ∈ front
    · obtain ⟨s, t, rfl⟩ := List.append_of_mem hmem
      have hfront : (s ++ x :: t).Perm (x :: (s ++ t)) := List.perm_middle
      have hp' : l.Perm (s ++ t ++ rest) :=
        List.perm_cons x |>.mp (hp.trans (hfront.append_right rest))
      have hih := ih hp' hs fun a ha => h a (hfront.symm.subset (List.mem_cons_of_mem x ha))
      rw [hfront.length_eq, List.length_cons, List.take_succ_cons]
      exact (hih.cons x).trans hfront.symm
    · have hrest : x ∈ rest :=
        (List.mem_append.mp (hp.subset List.mem_cons_self)).resolve_left hmem
      cases front with
      | nil => exact List.Perm.refl _
      | cons a front =>
        -- `x` stands in front of `a`, which is to come before it
        have ha : a ∈ l := by
          rcases List.mem_cons.mp (hp.symm.subset (List.mem_cons_self (a := a))) with rfl | ha
          · exact absurd List.mem_cons_self hmem
          · exact ha
        exact absurd (hx a ha) (h a List.mem_cons_self x hrest)

theorem take_mergeSort_perm {le : α → α → Bool} {l front rest : List α} (hle : Orders le l)
    (hp : l.Perm (front ++ rest)) (h : ∀ a ∈ front, ∀ b ∈ rest, le b a = false) :
    ((l.mergeSort le).take front.length).Perm front :=
  take_perm_of_pairwise ((List.mergeSort_perm l le).trans hp) hle.pairwise_mergeSort
    fun a ha b hb => Bool.eq_false_iff.mp (h a ha b hb)

theorem drop_perm {l l' : List α} (hp : l.Perm l') {k : ℕ} (hk : (l.take k).Perm (l'.take k)) :
    (l.drop k).Perm (l'.drop k) := by
  have hall : (l.take k ++ l.drop k).Perm (l'.take k ++ l'.drop k) := by
    rwa [List.take_append_drop, List.take_append_drop]
  exact (List.perm_append_left_iff _).mp (hall.trans (hk.symm.append_right _))

theorem window_perm {l l' : List α} {i j : ℕ} (hi : (l.take i).Perm (l'.take i))
    (hj : (l.take (i + j)).Perm (l'.take (i + j))) :
    ((l.drop i).take j).Perm ((l'.drop i).take j) := by
  rw [List.take_add, List.take_add] at hj
  exact (List.perm_append_left_iff _).mp (hj.trans (hi.symm.append_right _))

end SortedPrefix

end AegisDB
