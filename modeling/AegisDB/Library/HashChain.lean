import Mathlib.Tactic

/-!
# Hash chains

Entries that each have the hash of the entry before them and their own.  What follows from the
chain about an entry that is exchanged is said by `HashChain.linked_set`.
-/

namespace AegisDB

/-- How entries are chained: by the hash before them, their own, and the one they ought to have. -/
structure HashChain (ε η : Type*) where
  prev : ε → η
  hash : ε → η
  digest : ε → η

namespace HashChain

variable {ε η : Type*} (c : HashChain ε η)

def Linked : η → List ε → Prop
  | _, [] => True
  | last, e :: es => c.prev e = last ∧ c.hash e = c.digest e ∧ Linked (c.hash e) es

def tip : η → List ε → η
  | last, [] => last
  | _, e :: es => tip (c.hash e) es

variable {c} {last : η} {e e' : ε} {es fs : List ε}

theorem linked_append :
    c.Linked last (es ++ fs) ↔ c.Linked last es ∧ c.Linked (c.tip last es) fs := by
  induction es generalizing last with
  | nil => simp [Linked, tip]
  | cons e es ih => simp only [List.cons_append, Linked, tip, ih, and_assoc]

theorem tip_append : c.tip last (es ++ fs) = c.tip (c.tip last es) fs := by
  induction es generalizing last with
  | nil => rfl
  | cons e es ih => exact ih

theorem tip_concat : c.tip last (es ++ [e]) = c.hash e :=
  tip_append

theorem tip_eq : c.tip last es = (es.getLast?.map c.hash).getD last := by
  induction es generalizing last with
  | nil => rfl
  | cons e es ih =>
    rw [tip, ih, List.getLast?_cons]
    cases es.getLast? <;> rfl

theorem linked_concat (h : c.Linked last es) (hprev : c.prev e = c.tip last es)
    (hhash : c.hash e = c.digest e) : c.Linked last (es ++ [e]) :=
  linked_append.2 ⟨h, hprev, hhash, trivial⟩

theorem linked_congr_iff (h : c.Linked last es) {other : η} :
    c.Linked other es ↔ es = [] ∨ other = last := by
  cases es with
  | nil => simp [Linked]
  | cons e es =>
    obtain ⟨hprev, hhash, hes⟩ := h
    simp only [Linked, reduceCtorEq, false_or]
    constructor
    · rintro ⟨hother, -⟩
      rw [← hother, hprev]
    · rintro rfl
      exact ⟨hprev, hhash, hes⟩

theorem Linked.hash_eq (h : c.Linked last es) (he : e ∈ es) : c.hash e = c.digest e := by
  induction es generalizing last with
  | nil => cases he
  | cons e₀ es ih =>
    obtain ⟨-, hhash, hes⟩ := h
    rcases List.mem_cons.1 he with rfl | he
    · exact hhash
    · exact ih hes he

/-- An exchanged entry stays chained just if it has the same hash before it, the hash of what it
says, and the same hash as before or none behind it. -/
theorem linked_set {i : ℕ} (h : c.Linked last es) (hi : es[i]? = some e) :
    c.Linked last (es.set i e') ↔
      c.prev e' = c.prev e ∧ c.hash e' = c.digest e' ∧
        (i + 1 = es.length ∨ c.hash e' = c.hash e) := by
  obtain ⟨hlt, rfl⟩ := List.getElem?_eq_some_iff.1 hi
  have hsplit : es = es.take i ++ es[i] :: es.drop (i + 1) := by
    rw [List.getElem_cons_drop, List.take_append_drop]
  rw [hsplit, linked_append] at h
  obtain ⟨hfront, hprev, -, hback⟩ := h
  rw [List.set_eq_take_append_cons_drop, if_pos hlt, linked_append, Linked, linked_congr_iff hback,
    List.drop_eq_nil_iff, hprev]
  constructor
  · rintro ⟨-, hprev', hhash', hlast | hsame⟩
    · exact ⟨hprev', hhash', .inl (by omega)⟩
    · exact ⟨hprev', hhash', .inr hsame⟩
  · rintro ⟨hprev', hhash', hlast | hsame⟩
    · exact ⟨hfront, hprev', hhash', .inl (by omega)⟩
    · exact ⟨hfront, hprev', hhash', .inr hsame⟩

theorem Linked.prev_eq {i : ℕ} (h : c.Linked last es) (hi : es[i]? = some e)
    (hi' : es[i + 1]? = some e') : c.prev e' = c.hash e := by
  induction es generalizing last i with
  | nil => cases hi
  | cons e₀ es ih =>
    obtain ⟨-, -, hes⟩ := h
    cases i with
    | zero =>
      obtain rfl := Option.some.inj hi
      cases es with
      | nil => cases hi'
      | cons e₁ es =>
        obtain rfl := Option.some.inj hi'
        exact hes.1
    | succ i => exact ih hes hi hi'

theorem Linked.prev_eq_digest (h : c.Linked last es) (he : e ∈ es) :
    c.prev e = last ∨ ∃ e₀ ∈ es, c.prev e = c.digest e₀ := by
  induction es generalizing last with
  | nil => cases he
  | cons e₀ es ih =>
    obtain ⟨hprev, hhash, hes⟩ := h
    rcases List.mem_cons.1 he with rfl | he
    · exact .inl hprev
    · rcases ih hes he with heq | ⟨e₁, he₁, heq⟩
      · exact .inr ⟨e₀, List.mem_cons_self, heq.trans hhash⟩
      · exact .inr ⟨e₁, List.mem_cons_of_mem _ he₁, heq⟩

theorem Linked.take (h : c.Linked last es) (n : ℕ) : c.Linked last (es.take n) := by
  rw [← List.take_append_drop n es, linked_append] at h
  exact h.1

/-- Two chains whose entries are told apart by their hashes are the same up to an entry with the
same hash in both. -/
theorem Linked.take_eq {i : ℕ} (hes : c.Linked last es) (hfs : c.Linked last fs)
    (hinj : ∀ e ∈ es, ∀ f ∈ fs, c.hash e = c.hash f → e = f) (hi : es[i]? = some e)
    (hi' : fs[i]? = some e') (heq : c.hash e = c.hash e') :
    es.take (i + 1) = fs.take (i + 1) := by
  induction i generalizing e e' with
  | zero =>
    obtain rfl := hinj e (List.mem_of_getElem? hi) e' (List.mem_of_getElem? hi') heq
    rw [List.take_add_one, List.take_add_one, hi, hi', List.take_zero, List.take_zero]
  | succ i ih =>
    obtain rfl := hinj e (List.mem_of_getElem? hi) e' (List.mem_of_getElem? hi') heq
    have hlt : i < es.length := Nat.lt_of_succ_lt (List.getElem?_eq_some_iff.1 hi).1
    have hlt' : i < fs.length := Nat.lt_of_succ_lt (List.getElem?_eq_some_iff.1 hi').1
    have hbefore := List.getElem?_eq_getElem hlt
    have hbefore' := List.getElem?_eq_getElem hlt'
    have hsame := ih hbefore hbefore'
      ((hes.prev_eq hbefore hi).symm.trans (hfs.prev_eq hbefore' hi'))
    rw [List.take_add_one, List.take_add_one (l := fs), hsame, hi, hi']

end HashChain

end AegisDB
