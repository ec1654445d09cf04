import Mathlib.Data.List.Infix
import Mathlib.Data.List.Count
import Mathlib.Tactic

/-!
# Patterns with wildcards

A pattern is a list of letters and of wildcards for one letter or for any number of them, and a text
matches it as a whole.  A search for a pattern looks for the texts between its wildcards one after
the other and never goes back.  It is right where the pattern goes on with a wildcard for any number
of letters: the first occurrence of a text leaves most of the rest (`matches_any_word_any`).
-/

namespace AegisDB

variable {α : Type*}

/-- An element of a pattern. -/
inductive Wildcard (α : Type*) where
  | any
  | one
  | letter (a : α)
deriving DecidableEq

namespace Wildcard

/-- The whole text matches the pattern. -/
def Matches : List (Wildcard α) → List α → Prop
  | [], s => s = []
  | any :: p, s => ∃ t ∈ s.tails, Matches p t
  | one :: p, s => ∃ a t, s = a :: t ∧ Matches p t
  | letter a :: p, s => ∃ t, s = a :: t ∧ Matches p t

variable {p q : List (Wildcard α)} {s t w : List α} {a b : α}

theorem matches_any_cons : Matches (any :: p) s ↔ ∃ t, t <:+ s ∧ Matches p t := by
  rw [Matches]
  simp only [List.mem_tails]

theorem matches_one_nil : ¬ Matches (one :: p) ([] : List α) := by
  rintro ⟨a, t, h, -⟩
  cases h

theorem matches_one_cons : Matches (one :: p) (b :: s) ↔ Matches p s := by
  constructor
  · rintro ⟨a, t, h, ht⟩
    obtain ⟨-, rfl⟩ := List.cons.inj h
    exact ht
  · intro h
    exact ⟨b, s, rfl, h⟩

theorem matches_letter_nil : ¬ Matches (letter a :: p) [] := by
  rintro ⟨t, h, -⟩
  cases h

theorem matches_letter_cons : Matches (letter a :: p) (b :: s) ↔ b = a ∧ Matches p s := by
  constructor
  · rintro ⟨t, h, ht⟩
    obtain ⟨rfl, rfl⟩ := List.cons.inj h
    exact ⟨rfl, ht⟩
  · rintro ⟨rfl, h⟩
    exact ⟨s, rfl, h⟩

instance decidableMatches [DecidableEq α] :
    ∀ (p : List (Wildcard α)) (s : List α), Decidable (Matches p s)
  | [], s => inferInstanceAs (Decidable (s = []))
  | any :: p, s =>
      have : ∀ t, Decidable (Matches p t) := decidableMatches p
      inferInstanceAs (Decidable (∃ t ∈ s.tails, Matches p t))
  | one :: _, [] => isFalse matches_one_nil
  | one :: p, _ :: s =>
      have : Decidable (Matches p s) := decidableMatches p s
      decidable_of_iff (Matches p s) matches_one_cons.symm
  | letter _ :: _, [] => isFalse matches_letter_nil
  | letter a :: p, b :: s =>
      have : Decidable (Matches p s) := decidableMatches p s
      decidable_of_iff (b = a ∧ Matches p s) matches_letter_cons.symm

/-! ## Any number of letters -/

theorem matches_any_cons_cons :
    Matches (any :: p) (a :: s) ↔ Matches p (a :: s) ∨ Matches (any :: p) s := by
  rw [matches_any_cons, matches_any_cons]
  constructor
  · rintro ⟨t, hsuffix, ht⟩
    rcases List.suffix_cons_iff.mp hsuffix with rfl | hsuffix
    · exact Or.inl ht
    · exact Or.inr ⟨t, hsuffix, ht⟩
  · rintro (h | ⟨t, hsuffix, ht⟩)
    · exact ⟨a :: s, List.suffix_rfl, h⟩
    · exact ⟨t, List.suffix_cons_iff.mpr (Or.inr hsuffix), ht⟩

theorem matches_any_nil : Matches (any :: p) [] ↔ Matches p [] := by
  rw [matches_any_cons]
  simp only [List.suffix_nil, exists_eq_left]

theorem Matches.any_of_suffix (h : Matches (any :: p) t) (hsuffix : t <:+ s) :
    Matches (any :: p) s := by
  obtain ⟨u, hu, hmatch⟩ := matches_any_cons.mp h
  exact matches_any_cons.mpr ⟨u, hu.trans hsuffix, hmatch⟩

theorem matches_any : Matches [any] s :=
  matches_any_cons.mpr ⟨[], List.nil_suffix, rfl⟩

/-- A text matches two patterns one after the other if it can be cut accordingly. -/
theorem matches_append :
    Matches (p ++ q) s ↔ ∃ t u, s = t ++ u ∧ Matches p t ∧ Matches q u := by
  induction p generalizing s with
  | nil =>
    constructor
    · intro h
      exact ⟨[], s, rfl, rfl, h⟩
    · rintro ⟨t, u, rfl, rfl, hu⟩
      exact hu
  | cons x p ih =>
    rw [List.cons_append]
    cases x with
    | any =>
      rw [matches_any_cons]
      constructor
      · rintro ⟨r, ⟨front, rfl⟩, hr⟩
        obtain ⟨t, u, rfl, ht, hu⟩ := ih.mp hr
        refine ⟨front ++ t, u, (List.append_assoc front t u).symm, ?_, hu⟩
        exact matches_any_cons.mpr ⟨t, List.suffix_append front t, ht⟩
      · rintro ⟨t, u, rfl, ht, hu⟩
        obtain ⟨r, ⟨front, rfl⟩, hr⟩ := matches_any_cons.mp ht
        refine ⟨r ++ u, ⟨front, (List.append_assoc front r u).symm⟩, ?_⟩
        exact ih.mpr ⟨r, u, rfl, hr, hu⟩
    | one =>
      constructor
      · rintro ⟨a, r, rfl, hr⟩
        obtain ⟨t, u, rfl, ht, hu⟩ := ih.mp hr
        exact ⟨a :: t, u, rfl, ⟨a, t, rfl, ht⟩, hu⟩
      · rintro ⟨t, u, rfl, ⟨a, r, rfl, hr⟩, hu⟩
        exact ⟨a, r ++ u, rfl, ih.mpr ⟨r, u, rfl, hr, hu⟩⟩
    | letter a =>
      constructor
      · rintro ⟨r, rfl, hr⟩
        obtain ⟨t, u, rfl, ht, hu⟩ := ih.mp hr
        exact ⟨a :: t, u, rfl, ⟨t, rfl, ht⟩, hu⟩
      · rintro ⟨t, u, rfl, ⟨r, rfl, hr⟩, hu⟩
        exact ⟨r ++ u, rfl, ih.mpr ⟨r, u, rfl, hr, hu⟩⟩

theorem matches_append_any : Matches (p ++ [any]) s ↔ ∃ t, t <+: s ∧ Matches p t := by
  rw [matches_append]
  constructor
  · rintro ⟨t, u, rfl, ht, -⟩
    exact ⟨t, List.prefix_append t u, ht⟩
  · rintro ⟨t, ⟨u, rfl⟩, ht⟩
    exact ⟨t, u, rfl, ht, matches_any⟩

theorem matches_append_any_any : Matches (p ++ [any] ++ [any]) s ↔ Matches (p ++ [any]) s := by
  rw [matches_append_any, matches_append_any]
  constructor
  · rintro ⟨t, ht, hmatch⟩
    obtain ⟨u, hu, hmatch⟩ := matches_append_any.mp hmatch
    exact ⟨u, hu.trans ht, hmatch⟩
  · rintro ⟨t, ht, hmatch⟩
    exact ⟨s, List.prefix_rfl, matches_append_any.mpr ⟨t, ht, hmatch⟩⟩

/-! ## Words -/

def word (w : List α) : List (Wildcard α) :=
  w.map letter

theorem matches_word : Matches (word w) s ↔ s = w := by
  induction w generalizing s with
  | nil => exact Iff.rfl
  | cons a w ih =>
    constructor
    · rintro ⟨t, rfl, ht⟩
      rw [ih.mp ht]
    · rintro rfl
      exact ⟨w, rfl, ih.mpr rfl⟩

theorem matches_word_append : Matches (word w ++ p) s ↔ ∃ t, s = w ++ t ∧ Matches p t := by
  rw [matches_append]
  constructor
  · rintro ⟨v, t, rfl, hv, ht⟩
    exact ⟨t, by rw [matches_word.mp hv], ht⟩
  · rintro ⟨t, rfl, ht⟩
    exact ⟨w, t, rfl, matches_word.mpr rfl, ht⟩

/-! ## The first occurrence of a text -/

variable [DecidableEq α]

/-- Where a text is for the first time in another one. -/
def firstAt (w : List α) : List α → Option ℕ
  | [] => if w = [] then some 0 else none
  | a :: s => if w <+: a :: s then some 0 else (firstAt w s).map (· + 1)

theorem firstAt_eq_zero_iff : firstAt w s = some 0 ↔ w <+: s := by
  cases s with
  | nil =>
    rw [firstAt, List.prefix_nil]
    split_ifs with h
    · exact iff_of_true rfl h
    · exact iff_of_false (fun h' => nomatch h') h
  | cons a s =>
    rw [firstAt]
    split_ifs with h
    · exact iff_of_true rfl h
    · refine iff_of_false (fun h' => ?_) h
      obtain ⟨k, -, hk⟩ := Option.map_eq_some_iff.mp h'
      omega

/-- Between two wildcards for any number of letters, the first occurrence of a text is as good as
any other. -/
theorem matches_any_word_any :
    Matches (any :: (word w ++ any :: p)) s ↔
      ∃ k, firstAt w s = some k ∧ Matches (any :: p) (s.drop (k + w.length)) := by
  induction s with
  | nil =>
    rw [matches_any_nil, matches_word_append, firstAt]
    constructor
    · rintro ⟨t, ht, hmatch⟩
      obtain ⟨rfl, rfl⟩ := List.append_eq_nil_iff.mp ht.symm
      exact ⟨0, if_pos rfl, hmatch⟩
    · rintro ⟨k, hk, hmatch⟩
      have hw : w = [] := by
        by_contra hne
        rw [if_neg hne] at hk
        cases hk
      subst hw
      exact ⟨[], rfl, by simpa using hmatch⟩
  | cons a s ih =>
    rw [matches_any_cons_cons, firstAt]
    by_cases hprefix : w <+: a :: s
    · rw [if_pos hprefix]
      obtain ⟨t, ht⟩ := hprefix
      have hdrop : (a :: s).drop (0 + w.length) = t := by
        rw [Nat.zero_add, ← ht, List.drop_left]
      constructor
      · intro h
        refine ⟨0, rfl, ?_⟩
        rw [hdrop]
        rcases h with h | h
        · obtain ⟨u, hu, hmatch⟩ := matches_word_append.mp h
          rwa [List.append_cancel_left (ht.trans hu)]
        · -- a later occurrence leaves less
          obtain ⟨r, hr, hmatch⟩ := matches_any_cons.mp h
          obtain ⟨u, rfl, hu⟩ := matches_word_append.mp hmatch
          refine hu.any_of_suffix ?_
          have hlater : u <:+ a :: s := (List.suffix_append w u).trans
            (hr.trans (List.suffix_cons a s))
          refine List.suffix_of_suffix_length_le hlater (ht ▸ List.suffix_append w t) ?_
          have hlen := hr.length_le
          have hlen' := congrArg List.length ht
          rw [List.length_append] at hlen hlen'
          rw [List.length_cons] at hlen'
          omega
      · rintro ⟨k, hk, hmatch⟩
        obtain rfl : 0 = k := Option.some.inj hk
        rw [hdrop] at hmatch
        exact Or.inl (matches_word_append.mpr ⟨t, ht.symm, hmatch⟩)
    · rw [if_neg hprefix]
      have hnot : ¬ Matches (word w ++ any :: p) (a :: s) := fun h => by
        obtain ⟨t, ht, -⟩ := matches_word_append.mp h
        exact hprefix ⟨t, ht.symm⟩
      rw [or_iff_right hnot, ih]
      constructor
      · rintro ⟨k, hk, hmatch⟩
        refine ⟨k + 1, by rw [hk, Option.map_some], ?_⟩
        rwa [Nat.add_right_comm, List.drop_succ_cons]
      · rintro ⟨k, hk, hmatch⟩
        obtain ⟨j, hj, rfl⟩ := Option.map_eq_some_iff.mp hk
        refine ⟨j, hj, ?_⟩
        rwa [Nat.add_right_comm, List.drop_succ_cons] at hmatch

/-! ## Letters that a match needs -/

theorem count_any_cons : (any :: p).count (letter a) = p.count (letter a) :=
  List.count_cons_of_ne fun h : any = letter a => nomatch h

theorem count_one_cons : (one :: p).count (letter a) = p.count (letter a) :=
  List.count_cons_of_ne fun h : one = letter a => nomatch h

theorem count_letter_cons :
    (letter b :: p).count (letter a) = p.count (letter a) + if b = a then 1 else 0 := by
  rw [List.count_cons]
  simp only [beq_iff_eq, letter.injEq]

theorem count_map (f : α → Wildcard α) (w : List α) (a : α) :
    (w.map f).count (letter a) = w.countP fun b => f b = letter a := by
  rw [List.count, List.countP_map]
  exact List.countP_congr fun b _ => by simp

/-- A text that matches has every letter of the pattern at least as often. -/
theorem Matches.count_le (h : Matches p s) (a : α) : p.count (letter a) ≤ s.count a := by
  induction p generalizing s with
  | nil => exact Nat.zero_le _
  | cons x p ih =>
    cases x with
    | any =>
      obtain ⟨t, ht, hmatch⟩ := matches_any_cons.mp h
      rw [count_any_cons]
      exact (ih hmatch).trans (ht.sublist.count_le a)
    | one =>
      obtain ⟨b, t, rfl, hmatch⟩ := h
      rw [count_one_cons]
      exact (ih hmatch).trans List.count_le_count_cons
    | letter b =>
      obtain ⟨t, rfl, hmatch⟩ := h
      have hrest := ih hmatch
      rw [count_letter_cons, List.count_cons]
      simp only [beq_iff_eq]
      omega

/-- The shortest text that matches, with one letter for every wildcard for one letter. -/
def shortest (fill : α) : List (Wildcard α) → List α
  | [] => []
  | any :: p => shortest fill p
  | one :: p => fill :: shortest fill p
  | letter a :: p => a :: shortest fill p

omit [DecidableEq α] in
theorem matches_shortest (fill : α) (p : List (Wildcard α)) : Matches p (shortest fill p) := by
  induction p with
  | nil => rfl
  | cons x p ih =>
    cases x with
    | any => exact matches_any_cons.mpr ⟨_, List.suffix_rfl, ih⟩
    | one => exact ⟨fill, _, rfl, ih⟩
    | letter a => exact ⟨_, rfl, ih⟩

theorem count_shortest {fill : α} (hne : fill ≠ a) (p : List (Wildcard α)) :
    (shortest fill p).count a = p.count (letter a) := by
  induction p with
  | nil => rfl
  | cons x p ih =>
    cases x with
    | any => rw [shortest, ih, count_any_cons]
    | one => rw [shortest, List.count_cons_of_ne hne, ih, count_one_cons]
    | letter b =>
      rw [shortest, List.count_cons, ih, count_letter_cons]
      simp only [beq_iff_eq]

end Wildcard

end AegisDB
