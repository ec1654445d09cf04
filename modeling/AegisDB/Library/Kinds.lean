import AegisDB.Library.Rounding
import AegisDB.Library.StableSort

/-!
# Comparisons within kinds

Values of several kinds may be compared so that only those of one kind have an order, and all others
tie.  Such a comparison is a total preorder on a list just if it is one within each kind, and a
single pair that does not tie leaves room for one kind only (`ComparesWithin.preorders_iff`).

Numbers may have two formats, and one is rounded when it is compared with the other.  Then two
integers that differ may tie with one floating-point number, and nothing else breaks the order
(`MixedNumber.isLE_trans`).
-/

namespace AegisDB

theorem isLE_eq_false_iff {o : Ordering} : o.isLE = false ↔ o = .gt := by
  cases o <;> decide

theorem compare_swap {α : Type} [Ord α] [Std.OrientedOrd α] (a b : α) :
    compare a b = (compare b a).swap :=
  Std.OrientedCmp.eq_swap

section Kinds

variable {α κ : Type*} {cmp : α → α → Ordering} {kind : α → Option κ} {l : List α}

/-- Among the elements of a list, only those of one kind do not tie. -/
structure ComparesWithin (cmp : α → α → Ordering) (kind : α → Option κ) (l : List α) : Prop where
  swap : ∀ a ∈ l, ∀ b ∈ l, cmp a b = (cmp b a).swap
  alike : ∀ a ∈ l, ∀ b ∈ l, cmp a b ≠ .eq → kind a = kind b ∧ kind a ≠ none

/-- If two elements do not tie, all are of their kind. -/
def OneKind (cmp : α → α → Ordering) (kind : α → Option κ) (l : List α) : Prop :=
  ∀ a ∈ l, ∀ b ∈ l, cmp a b = .gt → ∀ c ∈ l, kind c = kind a

namespace ComparesWithin

theorem oneKind (h : ComparesWithin cmp kind l) (hpre : Preorders cmp l) :
    OneKind cmp kind l := by
  intro a ha b hb hgt c hc
  by_contra hne
  obtain ⟨hkind, -⟩ := h.alike a ha b hb (by rw [hgt]; nofun)
  have hac : cmp a c = .eq := by
    by_contra hcmp
    exact hne (h.alike a ha c hc hcmp).1.symm
  have hcb : cmp c b = .eq := by
    by_contra hcmp
    exact hne ((h.alike c hc b hb hcmp).1.trans hkind.symm)
  have hle := hpre.trans ha hc hb (by rw [hac]; rfl) (by rw [hcb]; rfl)
  rw [hgt] at hle
  cases hle

theorem preorders_of_oneKind (h : ComparesWithin cmp kind l) (hone : OneKind cmp kind l)
    (htrans : ∀ k, ∀ a ∈ l, ∀ b ∈ l, ∀ c ∈ l, kind a = some k → kind b = some k →
      kind c = some k → (cmp a b).isLE = true → (cmp b c).isLE = true →
      (cmp a c).isLE = true) : Preorders cmp l := by
  refine Preorders.of_swap_trans h.swap fun a ha b hb c hc hab hbc => ?_
  by_contra hnot
  have hgt : cmp a c = .gt := isLE_eq_false_iff.mp (Bool.eq_false_iff.mpr hnot)
  obtain ⟨hkind, hsome⟩ := h.alike a ha c hc (by rw [hgt]; nofun)
  obtain ⟨k, hk⟩ := Option.ne_none_iff_exists'.mp hsome
  exact hnot (htrans k a ha b hb c hc hk ((hone a ha c hc hgt b hb).trans hk)
    (hkind.symm.trans hk) hab hbc)

end ComparesWithin

end Kinds

/-! ## Numbers of two formats -/

theorem getD_partialCmp {x y : Binary64} (hx : x.isNaN = false) (hy : y.isNaN = false) :
    (x.partialCmp y).getD .eq = compare x.order y.order := by
  rw [Binary64.partialCmp, hx, hy]
  rfl

theorem getD_partialCmp_swap (x y : Binary64) :
    (x.partialCmp y).getD .eq = ((y.partialCmp x).getD .eq).swap := by
  rw [Binary64.partialCmp, Binary64.partialCmp, Bool.or_comm]
  split_ifs
  · rfl
  · exact compare_swap x.order y.order

theorem isNaN_of_partialCmp {x y : Binary64} (h : (x.partialCmp y).getD .eq ≠ .eq) :
    x.isNaN = false ∧ y.isNaN = false := by
  rw [Binary64.partialCmp] at h
  split_ifs at h with hnan
  · exact absurd rfl h
  · rwa [Bool.or_eq_true, not_or, Bool.not_eq_true, Bool.not_eq_true] at hnan

abbrev MixedNumber := Int64 ⊕ Binary64

namespace MixedNumber

def asF64 : MixedNumber → Binary64
  | .inl i => Binary64.ofInt64 i
  | .inr f => f

/-- Integers compare exactly; others are rounded first. -/
def cmp : MixedNumber → MixedNumber → Ordering
  | .inl i, .inl j => compare i j
  | a, b => (a.asF64.partialCmp b.asF64).getD .eq

theorem cmp_swap (a b : MixedNumber) : cmp a b = (cmp b a).swap := by
  cases a with
  | inl i =>
    cases b with
    | inl j => exact compare_swap i j
    | inr g => exact getD_partialCmp_swap _ _
  | inr f => cases b <;> exact getD_partialCmp_swap _ _

theorem isNaN_of_cmp {a b : MixedNumber} (h : cmp a b ≠ .eq) :
    a.asF64.isNaN = false ∧ b.asF64.isNaN = false := by
  cases a with
  | inl i =>
    cases b with
    | inl j => exact ⟨Binary64.isNaN_ofInt64 i, Binary64.isNaN_ofInt64 j⟩
    | inr g => exact isNaN_of_partialCmp h
  | inr f => cases b <;> exact isNaN_of_partialCmp h

theorem cmp_of_place {a b : MixedNumber} (ha : a.asF64.isNaN = false) (hb : b.asF64.isNaN = false)
    (hfloat : a.isRight = true ∨ b.isRight = true) :
    cmp a b = compare a.asF64.order b.asF64.order := by
  cases a with
  | inl i =>
    cases b with
    | inl j => exact (hfloat.elim nofun nofun)
    | inr g => exact getD_partialCmp ha hb
  | inr f => cases b <;> exact getD_partialCmp ha hb

theorem place_le {a b : MixedNumber} (ha : a.asF64.isNaN = false) (hb : b.asF64.isNaN = false)
    (h : (cmp a b).isLE = true) : a.asF64.order ≤ b.asF64.order := by
  cases a with
  | inl i =>
    cases b with
    | inl j => exact Binary64.order_ofInt64_mono (Std.isLE_compare.mp h)
    | inr g =>
      rw [cmp_of_place ha hb (Or.inr rfl)] at h
      exact Std.isLE_compare.mp h
  | inr f =>
    rw [cmp_of_place ha hb (Or.inl rfl)] at h
    exact Std.isLE_compare.mp h

/-- Two integers tie with one floating-point number. -/
def TieAt (i j : Int64) (f : Binary64) : Prop :=
  cmp (.inl i) (.inr f) = .eq ∧ cmp (.inl j) (.inr f) = .eq

theorem tieAt_of_between {i j : Int64} {f : Binary64} (hf : f.isNaN = false) (hlt : i < j)
    (hjf : (cmp (.inl j) (.inr f)).isLE = true) (hfi : (cmp (.inr f) (.inl i)).isLE = true) :
    TieAt i j f := by
  have hi : (Binary64.ofInt64 i).isNaN = false := Binary64.isNaN_ofInt64 i
  have hj : (Binary64.ofInt64 j).isNaN = false := Binary64.isNaN_ofInt64 j
  have hij : (Binary64.ofInt64 i).order ≤ (Binary64.ofInt64 j).order :=
    Binary64.order_ofInt64_mono (Std.le_of_lt hlt)
  have hjf' : (Binary64.ofInt64 j).order ≤ f.order :=
    @place_le (.inl j) (.inr f) hj hf hjf
  have hfi' : f.order ≤ (Binary64.ofInt64 i).order :=
    @place_le (.inr f) (.inl i) hf hi hfi
  constructor
  · rw [@cmp_of_place (.inl i) (.inr f) hi hf (Or.inr rfl)]
    exact Std.compare_eq_iff_eq.mpr (le_antisymm (hij.trans hjf') hfi')
  · rw [@cmp_of_place (.inl j) (.inr f) hj hf (Or.inr rfl)]
    exact Std.compare_eq_iff_eq.mpr (le_antisymm hjf' (hfi'.trans hij))

/-- Numbers are in order from the first to the last, unless those are two integers that tie with the
number between them. -/
theorem isLE_trans {a b c : MixedNumber} (ha : a.asF64.isNaN = false) (hb : b.asF64.isNaN = false)
    (hc : c.asF64.isNaN = false)
    (hround : ∀ i j f, c = .inl i → a = .inl j → b = .inr f → i < j → ¬ TieAt i j f)
    (hab : (cmp a b).isLE = true) (hbc : (cmp b c).isLE = true) : (cmp a c).isLE = true := by
  have hplace : a.asF64.order ≤ c.asF64.order := (place_le ha hb hab).trans (place_le hb hc hbc)
  by_cases hfloat : a.isRight = true ∨ c.isRight = true
  · rw [cmp_of_place ha hc hfloat]
    exact Std.isLE_compare.mpr hplace
  · obtain ⟨hfa, hfc⟩ := not_or.mp hfloat
    cases a with
    | inr f => exact absurd rfl hfa
    | inl j =>
      cases c with
      | inr f => exact absurd rfl hfc
      | inl i =>
        cases b with
        | inl k => exact @Std.TransCmp.isLE_trans Int64 compare _ j k i hab hbc
        | inr f =>
          have hle : j ≤ i := by
            by_contra hnot
            have hlt : i < j := Int64.not_le.mp hnot
            exact hround i j f rfl rfl rfl hlt (tieAt_of_between hb hlt hab hbc)
          exact Std.isLE_compare.mpr hle

theorem not_tieAt {β : Type*} {cmpβ : β → β → Ordering} {l : List β} (h : Preorders cmpβ l)
    {i j : Int64} {f : Binary64} {vi vj vf : β} (hi : vi ∈ l) (hj : vj ∈ l) (hf : vf ∈ l)
    (hif : cmpβ vi vf = cmp (.inl i) (.inr f)) (hjf : cmpβ vj vf = cmp (.inl j) (.inr f))
    (hji : cmpβ vj vi = cmp (.inl j) (.inl i)) (hlt : i < j) : ¬ TieAt i j f := by
  rw [TieAt]
  rintro ⟨hi', hj'⟩
  have hfi : cmpβ vf vi = .eq := by
    rw [h.swap hf hi, hif, hi']
    rfl
  have hle := h.trans hj hf hi (by rw [hjf, hj']; rfl) (by rw [hfi]; rfl)
  rw [hji] at hle
  exact absurd (Std.isLE_compare.mp hle) (Int64.not_le.mpr hlt)

end MixedNumber

end AegisDB
