import AegisDB.Library.Table
import Mathlib.Algebra.BigOperators.Group.Finset.Basic

/-!
# Tables merged entry by entry

A table is merged into another by going through its entries and combining each value with what the
other has under the key.  Under every key the result depends on the two values there alone
(`Table.lookup_mergeWith`), whatever the order of the entries; so does a sum over a table, as long
as missing values count as zero (`Table.sumValues_congr`).
-/

namespace AegisDB

namespace Table

variable {α β : Type*} [DecidableEq α]

/-- Combine every entry of `t` with what `s` has under its key. -/
def mergeWith (f : Option β → β → β) (s t : Table α β) : Table α β :=
  t.entries.foldl (fun s e => s.insert e.1 (f (s.lookup e.1) e.2)) s

private theorem lookup_foldl_insert (f : Option β → β → β) (l : List (Sigma fun _ : α => β))
    (hl : l.NodupKeys) (s : Table α β) (a : α) :
    (l.foldl (fun s e => s.insert e.1 (f (s.lookup e.1) e.2)) s).lookup a =
      ((l.dlookup a).map (f (s.lookup a))).or (s.lookup a) := by
  induction l generalizing s with
  | nil => rfl
  | cons e l ih =>
    obtain ⟨b, c⟩ := e
    obtain ⟨hfresh, hl⟩ := List.nodupKeys_cons.mp hl
    rw [List.foldl_cons, ih hl, lookup_insert]
    by_cases hab : a = b
    · subst hab
      -- the key does not come again
      have hnone : l.dlookup a = none := List.dlookup_eq_none.mpr hfresh
      rw [hnone, List.dlookup_cons_eq, if_pos rfl]
      rfl
    · rw [if_neg hab, List.dlookup_cons_ne l ⟨b, c⟩ hab]

theorem lookup_mergeWith (f : Option β → β → β) (s t : Table α β) (a : α) :
    (s.mergeWith f t).lookup a = ((t.lookup a).map (f (s.lookup a))).or (s.lookup a) :=
  lookup_foldl_insert f t.entries t.nodupKeys s a

/-! ## Sums -/

theorem sumValues_eq_sum_keys {M : Type*} [AddCommMonoid M] (f : β → M) (s : Table α β) :
    sumValues f s = ∑ a ∈ s.keys.toFinset, ((s.lookup a).map f).getD 0 := by
  have hnodup : s.keys.Nodup := s.nodupKeys
  rw [List.sum_toFinset _ hnodup, sumValues, values, AList.keys, List.keys, List.map_map,
    List.map_map]
  refine congrArg List.sum (List.map_congr_left fun e he => ?_)
  have hlookup : s.lookup e.1 = some e.2 := AList.mem_lookup_iff.mpr he
  rw [Function.comp_apply, Function.comp_apply, hlookup]
  rfl

theorem sumValues_congr {M : Type*} [AddCommMonoid M] {f : β → M} {s t : Table α β}
    (h : ∀ a, ((s.lookup a).map f).getD 0 = ((t.lookup a).map f).getD 0) :
    sumValues f s = sumValues f t := by
  -- a key of neither table counts nothing
  have hall (u : Table α β) (k : Finset α) (hk : u.keys.toFinset ⊆ k) :
      sumValues f u = ∑ a ∈ k, ((u.lookup a).map f).getD 0 := by
    rw [sumValues_eq_sum_keys]
    refine Finset.sum_subset hk fun a _ ha => ?_
    have hnone : u.lookup a = none := by
      rw [AList.lookup_eq_none, AList.mem_keys]
      exact fun hmem => ha (List.mem_toFinset.mpr hmem)
    rw [hnone]
    rfl
  rw [hall s (s.keys.toFinset ∪ t.keys.toFinset) Finset.subset_union_left,
    hall t (s.keys.toFinset ∪ t.keys.toFinset) Finset.subset_union_right]
  exact Finset.sum_congr rfl fun a _ => h a

end Table

end AegisDB
