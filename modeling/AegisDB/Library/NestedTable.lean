import AegisDB.Library.Table

/-!
# Tables of tables

A table under each key of a table, of which none is empty: the last entry of an inner table takes it
along when it is deleted.  Two such tables that have the same under each pair of keys have the same
keys.
-/

namespace AegisDB.Table

variable {α β γ : Type*} [DecidableEq α] [DecidableEq β]

def lookup₂ (s : Table α (Table β γ)) (a : α) (b : β) : Option γ :=
  (s.lookup a).bind fun m => m.lookup b

def insert₂ (s : Table α (Table β γ)) (a : α) (b : β) (c : γ) : Table α (Table β γ) :=
  s.insert a (((s.lookup a).getD ∅).insert b c)

def erase₂ (s : Table α (Table β γ)) (a : α) (b : β) : Table α (Table β γ) :=
  match s.lookup a with
  | some m => if (m.erase b).entries.isEmpty then s.erase a else s.insert a (m.erase b)
  | none => s

omit [DecidableEq β] in
theorem insert_erase (s : Table α β) (a : α) (b : β) : (s.erase a).insert a b = s.insert a b := by
  have hnone : a ∉ (s.erase a).entries.keys := List.notMem_keys_kerase a s.nodupKeys
  refine AList.ext ?_
  change (⟨a, b⟩ : Sigma fun _ => β) :: List.kerase a (s.erase a).entries = _
  rw [List.kerase_of_notMem_keys hnone]
  rfl

def Tight (s : Table α (Table β γ)) : Prop :=
  ∀ a m, s.lookup a = some m → m.entries.isEmpty = false

theorem lookup₂_insert₂ (s : Table α (Table β γ)) (a a' : α) (b b' : β) (c : γ) :
    (s.insert₂ a b c).lookup₂ a' b' =
      if a' = a ∧ b' = b then some c else s.lookup₂ a' b' := by
  rw [lookup₂, insert₂, lookup_insert, lookup₂]
  by_cases ha : a' = a
  · subst ha
    rw [if_pos rfl, Option.bind_some, lookup_insert]
    by_cases hb : b' = b
    · rw [if_pos hb, if_pos ⟨rfl, hb⟩]
    · rw [if_neg hb, if_neg fun h => hb h.2]
      cases s.lookup a' <;> rfl
  · rw [if_neg ha, if_neg fun h => ha h.1]

theorem lookup_of_isEmpty {m : Table β γ} (h : m.entries.isEmpty = true) (b : β) :
    m.lookup b = none := by
  refine AList.lookup_eq_none.mpr fun hmem => ?_
  rw [AList.mem_keys, AList.keys, List.isEmpty_iff.mp h] at hmem
  cases hmem

theorem lookup₂_erase₂ (s : Table α (Table β γ)) (a a' : α) (b b' : β) :
    (s.erase₂ a b).lookup₂ a' b' = if a' = a ∧ b' = b then none else s.lookup₂ a' b' := by
  rw [erase₂]
  cases hm : s.lookup a with
  | none =>
    split_ifs with h
    · rw [lookup₂, h.1, hm]
      rfl
    · rfl
  | some m =>
    have hinner : (m.erase b).lookup b' = if b' = b then none else m.lookup b' :=
      lookup_erase m b b'
    dsimp only
    by_cases ha : a' = a
    · subst ha
      have hboth : (if a' = a' ∧ b' = b then none else s.lookup₂ a' b') = (m.erase b).lookup b' := by
        rw [hinner, lookup₂, hm, Option.bind_some]
        simp only [true_and]
      rw [hboth]
      split_ifs with hempty
      · rw [lookup₂, AList.lookup_erase, lookup_of_isEmpty hempty]
        rfl
      · rw [lookup₂, AList.lookup_insert]
        rfl
    · rw [if_neg (fun h => ha h.1 : ¬(a' = a ∧ b' = b))]
      split_ifs with hempty
      · rw [lookup₂, AList.lookup_erase_ne ha, lookup₂]
      · rw [lookup₂, AList.lookup_insert_ne ha, lookup₂]

omit [DecidableEq β] in
theorem tight_empty : Tight (∅ : Table α (Table β γ)) :=
  fun _ _ h => (nomatch h)

theorem Tight.insert₂ {s : Table α (Table β γ)} (h : s.Tight) (a : α) (b : β) (c : γ) :
    (s.insert₂ a b c).Tight := by
  intro a' m hm
  rw [Table.insert₂, lookup_insert] at hm
  split_ifs at hm
  · rw [← Option.some.inj hm]
    rfl
  · exact h a' m hm

theorem Tight.erase₂ {s : Table α (Table β γ)} (h : s.Tight) (a : α) (b : β) :
    (s.erase₂ a b).Tight := by
  rw [Table.erase₂]
  cases hm : s.lookup a with
  | none => exact h
  | some m =>
    intro a' m' hm'
    dsimp only at hm'
    split_ifs at hm' with hempty
    · rw [lookup_erase] at hm'
      split_ifs at hm'
      exact h a' m' hm'
    · rw [lookup_insert] at hm'
      split_ifs at hm'
      · rw [← Option.some.inj hm']
        exact Bool.not_eq_true _ ▸ hempty
      · exact h a' m' hm'

theorem Tight.isSome_lookup_iff {s : Table α (Table β γ)} (h : s.Tight) (a : α) :
    (s.lookup a).isSome = true ↔ ∃ b c, s.lookup₂ a b = some c := by
  constructor
  · intro hsome
    obtain ⟨m, hm⟩ := Option.isSome_iff_exists.mp hsome
    have hne := h a m hm
    cases hentries : m.entries with
    | nil =>
      rw [hentries] at hne
      cases hne
    | cons e entries =>
      refine ⟨e.1, e.2, ?_⟩
      rw [lookup₂, hm, Option.bind_some]
      exact AList.mem_lookup_iff.mpr (hentries ▸ List.mem_cons_self)
  · rintro ⟨b, c, hbc⟩
    rw [lookup₂] at hbc
    cases hm : s.lookup a with
    | none =>
      rw [hm] at hbc
      cases hbc
    | some m => rfl

end AegisDB.Table
