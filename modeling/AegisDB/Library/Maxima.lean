import AegisDB.Library.Table
import Mathlib.Order.Preorder.Finite

/-!
# Registers that keep maxima

Values are written with stamps that are partially ordered, and what counts are the writes whose
stamps are below no other (`maxima`).  A register has one stamp for each value.  It forgets what is
below a new write, and takes the write if it is below nothing that it has.

So the register keeps the maxima as long as no value has two of them (`writes_putAll_iff`): a second
write of a value at a concurrent stamp takes the place of the first.
-/

namespace AegisDB

variable {V P C : Type*}

/-! ## Maxima -/

section Maxima

variable [PartialOrder P]

def maxima (W : Set (V × P)) : Set (V × P) :=
  {w | w ∈ W ∧ ∀ w' ∈ W, ¬ w.2 < w'.2}

def Concurrent (W : Set (V × P)) : Prop :=
  ∀ w ∈ W, ∀ w' ∈ W, ¬ w.2 < w'.2

def OnePerValue (W : Set (V × P)) : Prop :=
  ∀ v p q, (v, p) ∈ W → (v, q) ∈ W → p = q

variable {A B W : Set (V × P)}

theorem maxima_subset : maxima W ⊆ W :=
  fun _ h => h.1

theorem concurrent_maxima : Concurrent (maxima W) :=
  fun _ h _ h' => h.2 _ h'.1

theorem Concurrent.maxima_eq (h : Concurrent W) : maxima W = W :=
  Set.Subset.antisymm maxima_subset fun w hw => ⟨hw, h w hw⟩

theorem concurrent_singleton (w : V × P) : Concurrent {w} := by
  rintro _ rfl _ rfl
  exact lt_irrefl _

theorem exists_maxima (hW : W.Finite) {w : V × P} (hw : w ∈ W) : ∃ m ∈ maxima W, w.2 ≤ m.2 := by
  obtain ⟨p, hle, hp⟩ := (hW.image Prod.snd).exists_le_maximal (Set.mem_image_of_mem Prod.snd hw)
  obtain ⟨m, hm, rfl⟩ := hp.prop
  exact ⟨m, ⟨hm, fun w' hw' => hp.not_gt (Set.mem_image_of_mem Prod.snd hw')⟩, hle⟩

theorem maxima_union_maxima (hA : A.Finite) (hB : B.Finite) :
    maxima (maxima A ∪ maxima B) = maxima (A ∪ B) := by
  -- what is above a write of either part has a maximum of the part above it
  have habove : ∀ w' ∈ A ∪ B, ∃ m ∈ maxima A ∪ maxima B, w'.2 ≤ m.2 := by
    rintro w' (hw' | hw')
    · obtain ⟨m, hm, hle⟩ := exists_maxima hA hw'
      exact ⟨m, Or.inl hm, hle⟩
    · obtain ⟨m, hm, hle⟩ := exists_maxima hB hw'
      exact ⟨m, Or.inr hm, hle⟩
  ext w
  constructor
  · rintro ⟨hw, hmax⟩
    refine ⟨Set.union_subset_union maxima_subset maxima_subset hw, fun w' hw' hlt => ?_⟩
    obtain ⟨m, hm, hle⟩ := habove w' hw'
    exact hmax m hm (lt_of_lt_of_le hlt hle)
  · rintro ⟨hw, hmax⟩
    refine ⟨hw.imp (fun hw => ⟨hw, fun w' hw' => hmax w' (Or.inl hw')⟩)
      fun hw => ⟨hw, fun w' hw' => hmax w' (Or.inr hw')⟩, fun m hm => hmax m ?_⟩
    exact Set.union_subset_union maxima_subset maxima_subset hm

theorem maxima_maxima_union (hA : A.Finite) (hB : B.Finite) :
    maxima (maxima A ∪ B) = maxima (A ∪ B) := by
  rw [← maxima_union_maxima (hA.subset maxima_subset) hB, ← maxima_union_maxima hA hB,
    concurrent_maxima.maxima_eq]

theorem maxima_union_maxima_right (hA : A.Finite) (hB : B.Finite) :
    maxima (A ∪ maxima B) = maxima (A ∪ B) := by
  rw [Set.union_comm, maxima_maxima_union hB hA, Set.union_comm]

/-- Two parts clash if a value has a maximum of each. -/
def Clash (A B : Set (V × P)) : Prop :=
  ¬ OnePerValue (maxima (A ∪ B))

theorem clash_comm : Clash A B ↔ Clash B A := by
  rw [Clash, Clash, Set.union_comm]

/-- If three parts with one stamp for each value clash, two of them do. -/
theorem onePerValue_union₃ {D : Set (V × P)} (hAB : ¬ Clash A B) (hAD : ¬ Clash A D)
    (hBD : ¬ Clash B D) (hA : OnePerValue A) (hB : OnePerValue B) (hD : OnePerValue D) :
    OnePerValue (maxima (A ∪ B ∪ D)) := by
  -- a maximum of everything is one of each two parts that it is in
  have hsub : ∀ {S T : Set (V × P)} {w : V × P}, w ∈ maxima T → S ⊆ T → w ∈ S → w ∈ maxima S :=
    fun hw hST hwS => ⟨hwS, fun w' hw' => hw.2 w' (hST hw')⟩
  have hABD : A ∪ B ⊆ A ∪ B ∪ D := Set.subset_union_left
  have hADD : A ∪ D ⊆ A ∪ B ∪ D := Set.union_subset_union_left D Set.subset_union_left
  have hBDD : B ∪ D ⊆ A ∪ B ∪ D := Set.union_subset_union_left D Set.subset_union_right
  rw [Clash, not_not] at hAB hAD hBD
  intro v p q hp hq
  rcases hp.1 with (hpA | hpB) | hpD <;> rcases hq.1 with (hqA | hqB) | hqD
  · exact hA v p q hpA hqA
  · exact hAB v p q (hsub hp hABD (Or.inl hpA)) (hsub hq hABD (Or.inr hqB))
  · exact hAD v p q (hsub hp hADD (Or.inl hpA)) (hsub hq hADD (Or.inr hqD))
  · exact hAB v p q (hsub hp hABD (Or.inr hpB)) (hsub hq hABD (Or.inl hqA))
  · exact hB v p q hpB hqB
  · exact hBD v p q (hsub hp hBDD (Or.inl hpB)) (hsub hq hBDD (Or.inr hqD))
  · exact hAD v p q (hsub hp hADD (Or.inr hpD)) (hsub hq hADD (Or.inl hqA))
  · exact hBD v p q (hsub hp hBDD (Or.inr hpD)) (hsub hq hBDD (Or.inl hqB))
  · exact hD v p q hpD hqD

end Maxima

/-! ## Registers -/

/-- Stamps, and how a program compares them. -/
structure Stamps (C P : Type*) [PartialOrder P] where
  stamp : C → P
  below : C → C → Bool
  below_iff : ∀ c d, below c d = true ↔ stamp c < stamp d

namespace Stamps

variable [PartialOrder P] (S : Stamps C P)

/-- The writes in a list of values with stamps. -/
def writesIn (l : List (Sigma fun _ : V => C)) : Set (V × P) :=
  {w | ∃ e ∈ l, (e.1, S.stamp e.2) = w}

def writes (r : Table V C) : Set (V × P) :=
  S.writesIn r.entries

variable [DecidableEq V]

def put (r : Table V C) (v : V) (c : C) : Table V C :=
  let kept := r.filterValues fun _ d => !S.below d c
  if kept.values.any fun d => S.below c d then kept else kept.insert v c

def putAll (r : Table V C) (l : List (Sigma fun _ : V => C)) : Table V C :=
  l.foldl (fun r e => S.put r e.1 e.2) r

variable {S}

theorem mem_writes_iff {r : Table V C} {w : V × P} :
    w ∈ S.writes r ↔ ∃ c, r.lookup w.1 = some c ∧ S.stamp c = w.2 := by
  obtain ⟨v, p⟩ := w
  constructor
  · rintro ⟨⟨v', c⟩, he, heq⟩
    obtain ⟨rfl, rfl⟩ := Prod.mk.inj heq
    exact ⟨c, AList.mem_lookup_iff.mpr he, rfl⟩
  · rintro ⟨c, hc, rfl⟩
    exact ⟨⟨v, c⟩, AList.mem_lookup_iff.mp hc, rfl⟩

omit [DecidableEq V] in
theorem finite_writesIn (l : List (Sigma fun _ : V => C)) : (S.writesIn l).Finite := by
  refine ((l.map fun e => (e.1, S.stamp e.2)).finite_toSet).subset ?_
  rintro w ⟨e, he, rfl⟩
  exact List.mem_map.mpr ⟨e, he, rfl⟩

theorem onePerValue_writes (r : Table V C) : OnePerValue (S.writes r) := by
  intro v p q hp hq
  obtain ⟨c, hc, rfl⟩ := mem_writes_iff.mp hp
  obtain ⟨d, hd, rfl⟩ := mem_writes_iff.mp hq
  rw [Option.some.inj (hc.symm.trans hd)]

theorem mem_writes_filter {r : Table V C} {c : C} {w : V × P} :
    w ∈ S.writes (r.filterValues fun _ d => !S.below d c) ↔
      w ∈ S.writes r ∧ ¬ w.2 < S.stamp c := by
  rw [mem_writes_iff, mem_writes_iff]
  constructor
  · rintro ⟨d, hd, hstamp⟩
    rw [Table.lookup_filterValues, Option.filter_eq_some_iff] at hd
    refine ⟨⟨d, hd.1, hstamp⟩, ?_⟩
    rw [← hstamp, ← S.below_iff, Bool.not_eq_true]
    exact (Bool.not_eq_eq_eq_not ..).mp hd.2
  · rintro ⟨⟨d, hd, hstamp⟩, hlt⟩
    refine ⟨d, ?_, hstamp⟩
    rw [Table.lookup_filterValues, Option.filter_eq_some_iff]
    rw [← hstamp, ← S.below_iff, Bool.not_eq_true] at hlt
    exact ⟨hd, by rw [hlt]; rfl⟩

theorem mem_writes_put_of_below {r : Table V C} {v : V} {c : C} {w : V × P}
    (hbelow : ∃ w' ∈ S.writes r, S.stamp c < w'.2) :
    w ∈ S.writes (S.put r v c) ↔ w ∈ S.writes r ∧ ¬ w.2 < S.stamp c := by
  obtain ⟨w', hw', hlt⟩ := hbelow
  have hkept : w' ∈ S.writes (r.filterValues fun _ d => !S.below d c) :=
    mem_writes_filter.mpr ⟨hw', hlt.not_gt⟩
  obtain ⟨d, hd, hstamp⟩ := mem_writes_iff.mp hkept
  rw [put, if_pos, mem_writes_filter]
  refine List.any_eq_true.mpr ⟨d, Table.mem_values.mpr ⟨_, hd⟩, ?_⟩
  rw [S.below_iff, hstamp]
  exact hlt

/-- Any other write is taken, in the place of what the register has for its value. -/
theorem mem_writes_put {r : Table V C} {v : V} {c : C} {w : V × P}
    (hbelow : ∀ w' ∈ S.writes r, ¬ S.stamp c < w'.2) :
    w ∈ S.writes (S.put r v c) ↔
      w = (v, S.stamp c) ∨ (w.1 ≠ v ∧ w ∈ S.writes r ∧ ¬ w.2 < S.stamp c) := by
  rw [put, if_neg, mem_writes_iff]
  · rw [Table.lookup_insert, ← mem_writes_filter, mem_writes_iff]
    obtain ⟨x, p⟩ := w
    by_cases hx : x = v
    · rw [if_pos hx]
      constructor
      · rintro ⟨d, hd, rfl⟩
        rw [hx, Option.some.inj hd]
        exact Or.inl rfl
      · rintro (heq | ⟨hne, -⟩)
        · exact ⟨c, rfl, (congrArg Prod.snd heq).symm⟩
        · exact absurd hx hne
    · rw [if_neg hx]
      constructor
      · exact fun h => Or.inr ⟨hx, h⟩
      · rintro (heq | ⟨-, h⟩)
        · exact absurd (congrArg Prod.fst heq) hx
        · exact h
  · intro hany
    obtain ⟨d, hd, hlt⟩ := List.any_eq_true.mp hany
    obtain ⟨x, hx⟩ := Table.mem_values.mp hd
    have hkept : (x, S.stamp d) ∈ S.writes (r.filterValues fun _ d => !S.below d c) :=
      mem_writes_iff.mpr ⟨d, hx, rfl⟩
    exact hbelow _ (mem_writes_filter.mp hkept).1 ((S.below_iff c d).mp hlt)

theorem writes_put_subset {r : Table V C} {v : V} {c : C} {w : V × P}
    (h : w ∈ S.writes (S.put r v c)) :
    (w = (v, S.stamp c) ∧ ∀ w' ∈ S.writes r, ¬ S.stamp c < w'.2) ∨
      (w ∈ S.writes r ∧ ¬ w.2 < S.stamp c) := by
  by_cases hbelow : ∃ w' ∈ S.writes r, S.stamp c < w'.2
  · exact Or.inr ((mem_writes_put_of_below hbelow).mp h)
  · push Not at hbelow
    rcases (mem_writes_put hbelow).mp h with heq | ⟨-, hold⟩
    · exact Or.inl ⟨heq, hbelow⟩
    · exact Or.inr hold

theorem concurrent_put {r : Table V C} (h : Concurrent (S.writes r)) (v : V) (c : C) :
    Concurrent (S.writes (S.put r v c)) := by
  intro w hw w' hw'
  rcases writes_put_subset hw with ⟨rfl, hnew⟩ | ⟨hold, hkept⟩
  · rcases writes_put_subset hw' with ⟨rfl, -⟩ | ⟨hold', -⟩
    · exact lt_irrefl _
    · exact hnew w' hold'
  · rcases writes_put_subset hw' with ⟨rfl, -⟩ | ⟨hold', -⟩
    · exact hkept
    · exact h w hold w' hold'

theorem concurrent_putAll {r : Table V C} (h : Concurrent (S.writes r))
    (l : List (Sigma fun _ : V => C)) : Concurrent (S.writes (S.putAll r l)) := by
  induction l generalizing r with
  | nil => exact h
  | cons e l ih => exact ih (concurrent_put h e.1 e.2)

theorem mem_writes_put_of_ne {r : Table V C} {v : V} {c : C} {w : V × P} (hw : w ∈ S.writes r)
    (hlt : ¬ w.2 < S.stamp c) (hne : w.1 ≠ v) : w ∈ S.writes (S.put r v c) := by
  by_cases hbelow : ∃ w' ∈ S.writes r, S.stamp c < w'.2
  · exact (mem_writes_put_of_below hbelow).mpr ⟨hw, hlt⟩
  · push Not at hbelow
    exact (mem_writes_put hbelow).mpr (Or.inr ⟨hne, hw, hlt⟩)

theorem writes_putAll_subset {r : Table V C} {U : Set (V × P)} (hr : S.writes r ⊆ U)
    (l : List (Sigma fun _ : V => C)) (hl : S.writesIn l ⊆ U) : S.writes (S.putAll r l) ⊆ U := by
  induction l generalizing r with
  | nil => exact hr
  | cons e l ih =>
    refine ih (fun w hw => ?_) fun w ⟨e', he', heq⟩ => hl ⟨e', List.mem_cons_of_mem e he', heq⟩
    rcases writes_put_subset hw with ⟨rfl, -⟩ | ⟨hold, -⟩
    · exact hl ⟨e, List.mem_cons_self, rfl⟩
    · exact hr hold

/-- What is put last for its value, and is below nothing, is in the register behind it. -/
theorem mem_putAll_of_maximal {r : Table V C} {U : Set (V × P)} (hr : S.writes r ⊆ U)
    {l : List (Sigma fun _ : V => C)} (hl : S.writesIn l ⊆ U) (hkeys : l.NodupKeys) {w : V × P}
    (hw : w ∈ maxima U) (hmem : w ∈ S.writesIn l ∨ (w ∈ S.writes r ∧ ∀ e ∈ l, w.1 ≠ e.1)) :
    w ∈ S.writes (S.putAll r l) := by
  induction l generalizing r with
  | nil =>
    rcases hmem with ⟨e, he, -⟩ | ⟨hwr, -⟩
    · cases he
    · exact hwr
  | cons e l ih =>
    obtain ⟨hfresh, hkeys⟩ := List.nodupKeys_cons.mp hkeys
    have heU : (e.1, S.stamp e.2) ∈ U := hl ⟨e, List.mem_cons_self, rfl⟩
    have hlU : S.writesIn l ⊆ U := fun w ⟨e', he', heq⟩ => hl ⟨e', List.mem_cons_of_mem e he', heq⟩
    have hputU : S.writes (S.put r e.1 e.2) ⊆ U :=
      writes_putAll_subset hr [e] fun w ⟨e', he', heq⟩ =>
        hl ⟨e', List.mem_cons.mpr (Or.inl (List.mem_singleton.mp he')), heq⟩
    refine ih hputU hlU hkeys ?_
    rcases hmem with ⟨e', he', heq⟩ | ⟨hwr, hne⟩
    · rcases List.mem_cons.mp he' with rfl | he'
      · -- it is put now
        refine Or.inr ⟨?_, fun e he hsame => hfresh ?_⟩
        · rw [← heq]
          refine (mem_writes_put fun w' hw' hlt => ?_).mpr (Or.inl rfl)
          rw [← heq] at hw
          exact hw.2 w' (hr hw') hlt
        · rw [← heq] at hsame
          exact List.mem_map.mpr ⟨e, he, hsame.symm⟩
      · exact Or.inl ⟨e', he', heq⟩
    · exact Or.inr ⟨mem_writes_put_of_ne hwr (hw.2 _ heU) (hne e List.mem_cons_self),
        fun e' he' => hne e' (List.mem_cons_of_mem e he')⟩

/-- If no value has two maxima, the maxima are kept when concurrent writes are put. -/
theorem mem_putAll_of_onePerValue {r : Table V C} {A L : Set (V × P)} (hfin : (A ∪ L).Finite)
    (hone : OnePerValue (maxima (A ∪ L))) (hL : Concurrent L) (hr : S.writes r ⊆ A ∪ L)
    {l : List (Sigma fun _ : V => C)} (hl : S.writesIn l ⊆ L)
    (hkept : ∀ m ∈ maxima (A ∪ L), m ∈ A → m ∈ S.writes r) {w : V × P}
    (hw : w ∈ maxima (A ∪ L)) (hmem : w ∈ S.writesIn l ∨ w ∈ S.writes r) :
    w ∈ S.writes (S.putAll r l) := by
  induction l generalizing r with
  | nil =>
    rcases hmem with ⟨e, he, -⟩ | hwr
    · cases he
    · exact hwr
  | cons e l ih =>
    have heL : (e.1, S.stamp e.2) ∈ L := hl ⟨e, List.mem_cons_self, rfl⟩
    have hlL : S.writesIn l ⊆ L := fun w ⟨e', he', heq⟩ => hl ⟨e', List.mem_cons_of_mem e he', heq⟩
    have hput : S.writes (S.put r e.1 e.2) ⊆ A ∪ L :=
      writes_putAll_subset hr [e] fun w ⟨e', he', heq⟩ =>
        Or.inr (hl ⟨e', List.mem_cons.mpr (Or.inl (List.mem_singleton.mp he')), heq⟩)
    -- a maximum that is there stays
    have hstays : ∀ m ∈ maxima (A ∪ L), m ∈ S.writes r → m ∈ S.writes (S.put r e.1 e.2) := by
      intro m hm hmr
      have hlt : ¬ m.2 < S.stamp e.2 := hm.2 _ (Or.inr heL)
      by_cases hvalue : m.1 = e.1
      · by_cases hbelow : ∃ w' ∈ S.writes r, S.stamp e.2 < w'.2
        · exact (mem_writes_put_of_below hbelow).mpr ⟨hmr, hlt⟩
        · -- nothing is above the write, so it is a maximum for the same value
          push Not at hbelow
          have hmax : (e.1, S.stamp e.2) ∈ maxima (A ∪ L) := by
            refine ⟨Or.inr heL, fun w' hw' hlt' => ?_⟩
            obtain ⟨m', hm', hle⟩ := exists_maxima hfin hw'
            have hlt'' : S.stamp e.2 < m'.2 := lt_of_lt_of_le hlt' hle
            rcases hm'.1 with hA | hL'
            · exact hbelow m' (hkept m' hm' hA) hlt''
            · exact hL _ heL m' hL' hlt''
          obtain ⟨v, p⟩ := m
          obtain rfl : v = e.1 := hvalue
          rw [hone _ _ _ hm hmax]
          exact (mem_writes_put hbelow).mpr (Or.inl rfl)
      · exact mem_writes_put_of_ne hmr hlt hvalue
    refine ih hput hlL (fun m hm hA => hstays m hm (hkept m hm hA)) ?_
    rcases hmem with ⟨e', he', heq⟩ | hwr
    · rcases List.mem_cons.mp he' with rfl | he'
      · refine Or.inr ?_
        rw [← heq] at hw ⊢
        exact (mem_writes_put fun w' hw' => hw.2 w' (hr hw')).mpr (Or.inl rfl)
      · exact Or.inl ⟨e', he', heq⟩
    · exact Or.inr (hstays w hw hwr)

/-- A register has the maxima of what it had and what is put into it just if no value has two. -/
theorem writes_putAll_iff {r : Table V C} (hr : Concurrent (S.writes r))
    {l : List (Sigma fun _ : V => C)} (hl : Concurrent (S.writesIn l)) :
    S.writes (S.putAll r l) = maxima (S.writes r ∪ S.writesIn l) ↔
      ¬ Clash (S.writes r) (S.writesIn l) := by
  rw [Clash, not_not]
  constructor
  · intro h
    rw [← h]
    exact onePerValue_writes _
  · intro hone
    have hfin : (S.writes r ∪ S.writesIn l).Finite :=
      (finite_writesIn r.entries).union (finite_writesIn l)
    have hkept : ∀ w ∈ maxima (S.writes r ∪ S.writesIn l), w ∈ S.writes (S.putAll r l) :=
      fun w hw => mem_putAll_of_onePerValue hfin hone hl Set.subset_union_left (le_refl _)
        (fun _ _ h => h) hw hw.1.symm
    refine Set.Subset.antisymm (fun w hw => ?_) hkept
    have hU := writes_putAll_subset (S := S) (r := r) (Set.subset_union_left) l
      Set.subset_union_right hw
    refine ⟨hU, fun w' hw' hlt => ?_⟩
    -- a maximum above would be in the register too
    obtain ⟨m, hm, hle⟩ := exists_maxima hfin hw'
    exact concurrent_putAll hr l w hw m (hkept m hm) (lt_of_lt_of_le hlt hle)

end Stamps

end AegisDB
