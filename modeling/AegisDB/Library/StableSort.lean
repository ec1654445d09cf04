import AegisDB.Library.SortedPrefix

/-!
# Stable sorting

A comparison with three results is a total preorder on the elements of a list if turning two of them
round turns the result round and results compose.  A sort promises something for such a comparison
only: the elements in the order of the comparison, and those that tie in the order that they had.
So whether two elements stand in another order behind the sort can be said before the sort
(`pairwise_mergeSort_iff`).  For any other comparison the elements come in some order, or the sort
does not end well.
-/

namespace AegisDB

variable {α β : Type*}

/-- The comparison is a total preorder on the elements of a list. -/
def Preorders (cmp : α → α → Ordering) (l : List α) : Prop :=
  Std.TransCmp fun a b : {a // a ∈ l} => cmp a.1 b.1

namespace Preorders

variable {cmp cmp' : α → α → Ordering} {l : List α}

theorem swap (h : Preorders cmp l) {a b : α} (ha : a ∈ l) (hb : b ∈ l) :
    cmp a b = (cmp b a).swap :=
  h.eq_swap (a := ⟨a, ha⟩) (b := ⟨b, hb⟩)

theorem trans (h : Preorders cmp l) {a b c : α} (ha : a ∈ l) (hb : b ∈ l) (hc : c ∈ l)
    (hab : (cmp a b).isLE = true) (hbc : (cmp b c).isLE = true) : (cmp a c).isLE = true :=
  h.isLE_trans (a := ⟨a, ha⟩) (b := ⟨b, hb⟩) (c := ⟨c, hc⟩) hab hbc

theorem of_swap_trans (hswap : ∀ a ∈ l, ∀ b ∈ l, cmp a b = (cmp b a).swap)
    (htrans : ∀ a ∈ l, ∀ b ∈ l, ∀ c ∈ l, (cmp a b).isLE = true → (cmp b c).isLE = true →
      (cmp a c).isLE = true) : Preorders cmp l where
  eq_swap {a b} := hswap a.1 a.2 b.1 b.2
  isLE_trans {a b c} := htrans a.1 a.2 b.1 b.2 c.1 c.2

theorem of_subset (h : Preorders cmp l) {l' : List α} (hsub : l' ⊆ l) : Preorders cmp l' :=
  of_swap_trans (fun _ ha _ hb => h.swap (hsub ha) (hsub hb))
    fun _ ha _ hb _ hc => h.trans (hsub ha) (hsub hb) (hsub hc)

theorem const : Preorders (fun _ _ => .eq) l :=
  of_swap_trans (fun _ _ _ _ => rfl) fun _ _ _ _ _ _ _ _ => rfl

theorem reverse (h : Preorders cmp l) : Preorders (fun a b => (cmp a b).swap) l := by
  refine of_swap_trans (fun a ha b hb => ?_) fun a ha b hb c hc hab hbc => ?_
  · rw [h.swap ha hb]
  · rw [← h.swap hb ha] at hab
    rw [← h.swap hc hb] at hbc
    rw [← h.swap hc ha]
    exact h.trans hc hb ha hbc hab

theorem on {f : α → β} {cmp : β → β → Ordering} (h : Preorders cmp (l.map f)) :
    Preorders (fun a b => cmp (f a) (f b)) l :=
  of_swap_trans (fun _ ha _ hb => h.swap (List.mem_map_of_mem ha) (List.mem_map_of_mem hb))
    fun _ ha _ hb _ hc => h.trans (List.mem_map_of_mem ha) (List.mem_map_of_mem hb)
      (List.mem_map_of_mem hc)

theorem lex (h : Preorders cmp l) (h' : Preorders cmp' l) :
    Preorders (fun a b => (cmp a b).then (cmp' a b)) l := by
  have hcmp : Std.TransCmp fun a b : {a // a ∈ l} => cmp a.1 b.1 := h
  have hcmp' : Std.TransCmp fun a b : {a // a ∈ l} => cmp' a.1 b.1 := h'
  exact (inferInstance : Std.TransCmp (compareLex (fun a b : {a // a ∈ l} => cmp a.1 b.1)
    fun a b => cmp' a.1 b.1))

theorem orders (h : Preorders cmp l) : SortedPrefix.Orders (fun a b => (cmp a b).isLE) l where
  trans _ ha _ hb _ hc := h.trans ha hb hc
  total a ha b hb := by
    rw [h.swap hb ha]
    cases cmp a b with
    | lt => exact Or.inl rfl
    | eq => exact Or.inl rfl
    | gt => exact Or.inr rfl

end Preorders

/-- What a sort promises; `none` is a panic. -/
structure StableSort (α : Type*) where
  sortBy : (α → α → Ordering) → List α → Option (List α)
  perm : ∀ cmp l l', sortBy cmp l = some l' → l'.Perm l
  /-- If the comparison is a total preorder on the elements, the sort is stable. -/
  stable : ∀ cmp l, Preorders cmp l →
    sortBy cmp l = some (l.mergeSort fun a b => (cmp a b).isLE)

def StableSort.merge : StableSort α where
  sortBy cmp l := some (l.mergeSort fun a b => (cmp a b).isLE)
  perm _ l _ h := Option.some.inj h ▸ List.mergeSort_perm l _
  stable _ _ _ := rfl

/-! ## Pairs behind the sort -/

section Pairs

variable {le : α → α → Bool} {R : α → α → Prop}

/-- Behind a stable sort, the pairs are those of the list, turned round where they are not in
order. -/
theorem pairwise_mergeSort_of_total
    (htrans : ∀ a b c, le a b = true → le b c = true → le a c = true)
    (htotal : ∀ a b, (le a b || le b a) = true) (l : List α) :
    (l.mergeSort le).Pairwise R ↔
      l.Pairwise fun a b => if le a b = true then R a b else R b a := by
  induction l with
  | nil =>
    rw [List.mergeSort_nil]
    exact iff_of_true List.Pairwise.nil List.Pairwise.nil
  | cons a l ih =>
    obtain ⟨l₁, l₂, hsort, hrest, hbefore⟩ := List.mergeSort_cons htrans htotal a l
    have hsorted := List.pairwise_mergeSort htrans htotal (a :: l)
    rw [hsort, List.pairwise_append, List.pairwise_cons] at hsorted
    have hmem : ∀ b, b ∈ l ↔ b ∈ l₁ ∨ b ∈ l₂ := fun b => by
      rw [← List.mem_append, ← hrest, List.mem_mergeSort]
    -- the first element is moved behind those that are in front of it
    have hfirst : (∀ b ∈ l, if le a b = true then R a b else R b a) ↔
        (∀ b ∈ l₁, R b a) ∧ ∀ b ∈ l₂, R a b := by
      constructor
      · intro h
        refine ⟨fun b hb => ?_, fun b hb => ?_⟩
        · have hpair := h b ((hmem b).mpr (Or.inl hb))
          have hle : le a b = false := (Bool.not_eq_eq_eq_not ..).mp (hbefore b hb)
          rwa [if_neg (Bool.eq_false_iff.mp hle)] at hpair
        · have hpair := h b ((hmem b).mpr (Or.inr hb))
          rwa [if_pos (hsorted.2.1.1 b hb)] at hpair
      · rintro ⟨h₁, h₂⟩ b hb
        rcases (hmem b).mp hb with hb | hb
        · have hle : le a b = false := (Bool.not_eq_eq_eq_not ..).mp (hbefore b hb)
          rw [if_neg (Bool.eq_false_iff.mp hle)]
          exact h₁ b hb
        · rw [if_pos (hsorted.2.1.1 b hb)]
          exact h₂ b hb
    rw [List.pairwise_cons, hfirst, ← ih, hsort, hrest, List.pairwise_append, List.pairwise_append,
      List.pairwise_cons]
    constructor
    · rintro ⟨h₁, ⟨ha, h₂⟩, h₁₂⟩
      exact ⟨⟨fun b hb => h₁₂ b hb a List.mem_cons_self, ha⟩, h₁, h₂,
        fun b hb c hc => h₁₂ b hb c (List.mem_cons_of_mem _ hc)⟩
    · rintro ⟨⟨hb, ha⟩, h₁, h₂, h₁₂⟩
      refine ⟨h₁, ⟨ha, h₂⟩, fun b hb' c hc => ?_⟩
      rcases List.mem_cons.mp hc with rfl | hc
      · exact hb b hb'
      · exact h₁₂ b hb' c hc

theorem pairwise_mergeSort_iff {l : List α} (h : SortedPrefix.Orders le l) :
    (l.mergeSort le).Pairwise R ↔
      l.Pairwise fun a b => if le a b = true then R a b else R b a := by
  have hmap : (l.attach.mergeSort fun a b => le a.1 b.1).map Subtype.val = l.mergeSort le := by
    rw [List.map_mergeSort (s := le) fun a _ b _ => rfl, List.attach_map_subtype_val]
  have hall := pairwise_mergeSort_of_total (R := fun a b : {a // a ∈ l} => R a.1 b.1)
    (fun a b c => h.trans a.1 a.2 b.1 b.2 c.1 c.2)
    (fun a b => Bool.or_eq_true_iff.mpr (h.total a.1 a.2 b.1 b.2)) l.attach
  rw [← hmap, List.pairwise_map, hall]
  conv_rhs => rw [← List.attach_map_subtype_val l, List.pairwise_map]

end Pairs

end AegisDB
