import Mathlib.Tactic

/-!
# Runs of one key

One pass cuts a list into runs of elements with one key.  Where the keys only rise there is one run
for each key, with all elements that have it.
-/

namespace AegisDB

namespace Runs

section Runs

variable {α κ : Type*} [DecidableEq κ]

/-- The runs of a list, behind elements of a run that has begun. -/
def runsFrom (key : α → κ) (k : κ) (begun : List α) : List α → List (κ × List α)
  | [] => [(k, begun)]
  | a :: l =>
      if key a = k then runsFrom key k (begun ++ [a]) l
      else (k, begun) :: runsFrom key (key a) [a] l

def runs (key : α → κ) : List α → List (κ × List α)
  | [] => []
  | a :: l => runsFrom key (key a) [a] l

end Runs

section Rising

variable {α κ : Type*} [LinearOrder κ] {key : α → κ} {l : List α}

/-- Behind elements with the key `k` come those with the key, and then runs with greater keys. -/
theorem runsFrom_spec {k : κ} (begun : List α) (hle : ∀ a ∈ l, k ≤ key a)
    (hsorted : l.Pairwise fun a b => key a ≤ key b) :
    ∃ rest, runsFrom key k begun l = (k, begun ++ l.filter fun a => key a = k) :: rest ∧
      rest.Pairwise (fun e e' => e.1 < e'.1) ∧
      (∀ e ∈ rest, k < e.1 ∧ e.2 = l.filter (fun a => key a = e.1) ∧ ∃ a ∈ l, key a = e.1) ∧
      ∀ a ∈ l, key a = k ∨ key a ∈ rest.map Prod.fst := by
  induction l generalizing k begun with
  | nil =>
    refine ⟨[], ?_, List.Pairwise.nil, fun _ h => (nomatch h), fun _ h => (nomatch h)⟩
    rw [runsFrom, List.filter_nil, List.append_nil]
  | cons a l ih =>
    rw [List.forall_mem_cons] at hle
    rw [List.pairwise_cons] at hsorted
    by_cases ha : key a = k
    · obtain ⟨rest, hruns, hrising, hrest, hkeys⟩ := ih (begun ++ [a]) hle.2 hsorted.2
      refine ⟨rest, ?_, hrising, fun e he => ?_, fun b hb => ?_⟩
      · rw [runsFrom, if_pos ha, hruns, List.filter_cons_of_pos (by simpa using ha),
          List.append_assoc]
        rfl
      · obtain ⟨hlt, hfilter, b, hb, hkey⟩ := hrest e he
        have hne : key a ≠ e.1 := fun h => hlt.ne (ha.symm.trans h)
        refine ⟨hlt, ?_, b, List.mem_cons_of_mem a hb, hkey⟩
        rw [List.filter_cons_of_neg (by simpa using hne)]
        exact hfilter
      · rcases List.mem_cons.mp hb with rfl | hb
        · exact .inl ha
        · exact hkeys b hb
    · have hlt : k < key a := lt_of_le_of_ne hle.1 (Ne.symm ha)
      obtain ⟨rest, hruns, hrising, hrest, hkeys⟩ := ih [a] hsorted.1 hsorted.2
      have hnil : (a :: l).filter (fun b => key b = k) = [] := by
        refine List.filter_eq_nil_iff.mpr fun b hb => ?_
        rcases List.mem_cons.mp hb with rfl | hb
        · simpa using ha
        · simpa using (hlt.trans_le (hsorted.1 b hb)).ne'
      refine ⟨(key a, [a] ++ l.filter fun b => key b = key a) :: rest, ?_, ?_, ?_, ?_⟩
      · rw [runsFrom, if_neg ha, hruns, hnil, List.append_nil]
      · exact List.pairwise_cons.mpr ⟨fun e he => (hrest e he).1, hrising⟩
      · rw [List.forall_mem_cons]
        refine ⟨⟨hlt, ?_, a, List.mem_cons_self, rfl⟩, fun e he => ?_⟩
        · rw [List.filter_cons_of_pos (by simp)]
          rfl
        · obtain ⟨hlt', hfilter, b, hb, hkey⟩ := hrest e he
          refine ⟨hlt.trans hlt', ?_, b, List.mem_cons_of_mem a hb, hkey⟩
          rw [List.filter_cons_of_neg (by simpa using hlt'.ne)]
          exact hfilter
      · intro b hb
        rw [List.map_cons, List.mem_cons]
        rcases List.mem_cons.mp hb with rfl | hb
        · exact .inr (.inl rfl)
        · exact .inr (hkeys b hb)

/-- **Runs group.**  Where the keys only rise, there is one run for each key, in the order of the
keys, with all elements that have the key. -/
theorem runs_spec (hsorted : l.Pairwise fun a b => key a ≤ key b) :
    (runs key l).Pairwise (fun e e' => e.1 < e'.1) ∧
      (∀ e ∈ runs key l, e.2 = l.filter (fun a => key a = e.1) ∧ ∃ a ∈ l, key a = e.1) ∧
      ∀ a ∈ l, key a ∈ (runs key l).map Prod.fst := by
  cases l with
  | nil => exact ⟨List.Pairwise.nil, fun _ h => (nomatch h), fun _ h => (nomatch h)⟩
  | cons a l =>
    rw [List.pairwise_cons] at hsorted
    obtain ⟨rest, hruns, hrising, hrest, hkeys⟩ := runsFrom_spec [a] hsorted.1 hsorted.2
    rw [runs, hruns]
    refine ⟨List.pairwise_cons.mpr ⟨fun e he => (hrest e he).1, hrising⟩, ?_, ?_⟩
    · rw [List.forall_mem_cons]
      refine ⟨⟨?_, a, List.mem_cons_self, rfl⟩, fun e he => ?_⟩
      · rw [List.filter_cons_of_pos (by simp)]
        rfl
      · obtain ⟨hlt, hfilter, b, hb, hkey⟩ := hrest e he
        refine ⟨?_, b, List.mem_cons_of_mem a hb, hkey⟩
        rw [List.filter_cons_of_neg (by simpa using hlt.ne)]
        exact hfilter
    · intro b hb
      rw [List.map_cons, List.mem_cons]
      rcases List.mem_cons.mp hb with rfl | hb
      · exact .inl rfl
      · exact hkeys b hb

end Rising

end Runs

end AegisDB
