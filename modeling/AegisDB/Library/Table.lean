import Mathlib.Algebra.BigOperators.Group.List.Basic
import Mathlib.Data.List.AList
import Mathlib.Data.List.Induction

/-!
# Tables

A hash map is an association list without repeated keys.  Mathlib has its insertion, deletion and
lookup; the maps over all values of a table, and what they do to a lookup, are added here.
-/

namespace AegisDB

abbrev Table (α β : Type*) := AList fun _ : α => β

namespace Table

variable {α β γ : Type*}

def values (s : Table α β) : List β :=
  s.entries.map Sigma.snd

def mapValues (f : α → β → γ) (s : Table α β) : Table α γ :=
  ⟨s.entries.map (Sigma.map id f), by
    rw [List.NodupKeys, List.map₂_keys]
    exact s.nodupKeys⟩

def filterValues (p : α → β → Bool) (s : Table α β) : Table α β :=
  ⟨s.entries.filter fun e => p e.1 e.2, s.nodupKeys.sublist List.filter_sublist⟩

variable [DecidableEq α]

instance [DecidableEq β] : DecidableEq (Table α β) :=
  fun _ _ => decidable_of_iff _ AList.ext_iff.symm

/-- Change the value under a key, if there is one. -/
def modify (a : α) (f : β → β) (s : Table α β) : Table α β :=
  s.mapValues fun a' b => if a' = a then f b else b

theorem mem_values {s : Table α β} {b : β} : b ∈ s.values ↔ ∃ a, s.lookup a = some b := by
  constructor
  · intro hb
    obtain ⟨⟨a, c⟩, hmem, rfl⟩ := List.mem_map.mp hb
    exact ⟨a, AList.mem_lookup_iff.mpr hmem⟩
  · rintro ⟨a, ha⟩
    exact List.mem_map.mpr ⟨⟨a, b⟩, AList.mem_lookup_iff.mp ha, rfl⟩

@[simp] theorem lookup_mapValues (f : α → β → γ) (s : Table α β) (a : α) :
    (s.mapValues f).lookup a = (s.lookup a).map (f a) :=
  List.dlookup_map₂ a

@[simp] theorem lookup_filterValues (p : α → β → Bool) (s : Table α β) (a : α) :
    (s.filterValues p).lookup a = (s.lookup a).filter (p a) := by
  ext b
  have hnew : (s.filterValues p).lookup a = some b ↔ (⟨a, b⟩ : Sigma fun _ => β) ∈
      (s.filterValues p).entries := AList.mem_lookup_iff
  have hold : s.lookup a = some b ↔ (⟨a, b⟩ : Sigma fun _ => β) ∈ s.entries :=
    AList.mem_lookup_iff
  rw [Option.filter_eq_some_iff, hnew, hold, filterValues, List.mem_filter]

/-- What a filter leaves was there before. -/
theorem lookup_of_lookup_filterValues {p : α → β → Bool} {s : Table α β} {a : α} {b : β}
    (h : (s.filterValues p).lookup a = some b) : s.lookup a = some b := by
  rw [lookup_filterValues, Option.filter_eq_some_iff] at h
  exact h.1

theorem lookup_modify (s : Table α β) (a a' : α) (f : β → β) :
    (s.modify a f).lookup a' = if a' = a then (s.lookup a').map f else s.lookup a' := by
  rw [modify, lookup_mapValues]
  split_ifs with h
  · rfl
  · exact Option.map_id'

theorem lookup_erase (s : Table α β) (a a' : α) :
    (s.erase a).lookup a' = if a' = a then none else s.lookup a' := by
  split_ifs with h
  · rw [h]
    exact AList.lookup_erase a s
  · exact AList.lookup_erase_ne h

/-- What an erasure leaves was there before. -/
theorem lookup_of_lookup_erase {s : Table α β} {a a' : α} {b : β}
    (h : (s.erase a).lookup a' = some b) : s.lookup a' = some b := by
  rw [lookup_erase] at h
  split_ifs at h
  exact h

theorem lookup_insert (s : Table α β) (a a' : α) (b : β) :
    (s.insert a b).lookup a' = if a' = a then some b else s.lookup a' := by
  split_ifs with h
  · rw [h]
    exact AList.lookup_insert s
  · exact AList.lookup_insert_ne h

theorem forall_lookup_insert {s : Table α β} {a : α} {b : β} {p : α → β → Prop} :
    (∀ a' b', (s.insert a b).lookup a' = some b' → p a' b') ↔
      p a b ∧ ∀ a' b', a' ≠ a → s.lookup a' = some b' → p a' b' := by
  constructor
  · intro h
    refine ⟨h a b (AList.lookup_insert s), fun a' b' hne hlookup => h a' b' ?_⟩
    rw [lookup_insert, if_neg hne, hlookup]
  · rintro ⟨hnew, hold⟩ a' b' hlookup
    rw [lookup_insert] at hlookup
    split_ifs at hlookup with heq
    · rw [heq, ← Option.some.inj hlookup]
      exact hnew
    · exact hold a' b' heq hlookup

theorem forall_lookup_erase {s : Table α β} {a : α} {p : α → β → Prop} :
    (∀ a' b', (s.erase a).lookup a' = some b' → p a' b') ↔
      ∀ a' b', a' ≠ a → s.lookup a' = some b' → p a' b' := by
  refine forall₂_congr fun a' b' => ?_
  rw [lookup_erase]
  split_ifs with heq
  · simp [heq]
  · simp [heq]

theorem erase_of_notMem {s : Table α β} {a : α} (h : a ∉ s) : s.erase a = s :=
  AList.ext (List.kerase_of_notMem_keys h)

/-! ### Sums over all values -/

section Sums

variable {M : Type*} [AddCommMonoid M]

def sumValues (f : β → M) (s : Table α β) : M :=
  (s.values.map f).sum

omit [DecidableEq α] in
@[simp] theorem sumValues_empty (f : β → M) : sumValues f (∅ : Table α β) = 0 :=
  rfl

theorem sumValues_insert (f : β → M) (s : Table α β) (a : α) (b : β) :
    sumValues f (s.insert a b) = f b + sumValues f (s.erase a) :=
  List.sum_cons

theorem sumValues_eq_add_erase (f : β → M) {s : Table α β} {a : α} {b : β}
    (h : s.lookup a = some b) : sumValues f s = f b + sumValues f (s.erase a) := by
  rw [← sumValues_insert]
  have hperm : s.entries.Perm (s.insert a b).entries := by
    refine List.lookup_ext s.nodupKeys (s.insert a b).nodupKeys fun a' c => ?_
    change c ∈ s.lookup a' ↔ c ∈ (s.insert a b).lookup a'
    rw [lookup_insert]
    split_ifs with ha
    · rw [ha, h]
    · rfl
  exact ((hperm.map Sigma.snd).map f).sum_eq

theorem sumValues_erase_of_none (f : β → M) {s : Table α β} {a : α} (h : s.lookup a = none) :
    sumValues f (s.erase a) = sumValues f s := by
  have herase : (s.erase a).entries = s.entries :=
    List.kerase_of_notMem_keys (AList.lookup_eq_none.mp h)
  rw [sumValues, values, herase]
  rfl

end Sums

/-! ### Tables of values that have their keys -/

/-- The table of values, each under its own key.  Where two have one key, the later counts. -/
def ofValues (key : β → α) (l : List β) : Table α β :=
  l.foldl (fun s b => s.insert (key b) b) ∅

theorem ofValues_concat (key : β → α) (l : List β) (b : β) :
    ofValues key (l ++ [b]) = (ofValues key l).insert (key b) b := by
  rw [ofValues, List.foldl_concat]
  rfl

theorem mem_of_lookup_ofValues {key : β → α} {l : List β} {a : α} {b : β}
    (h : (ofValues key l).lookup a = some b) : b ∈ l ∧ key b = a := by
  induction l using List.reverseRecOn with
  | nil => cases h
  | append_singleton l c ih =>
    rw [ofValues_concat, lookup_insert] at h
    split_ifs at h with ha
    · obtain rfl := Option.some.inj h
      exact ⟨List.mem_append_right _ (List.mem_singleton_self c), ha.symm⟩
    · obtain ⟨hmem, hkey⟩ := ih h
      exact ⟨List.mem_append_left _ hmem, hkey⟩

theorem exists_lookup_ofValues {key : β → α} {l : List β} {b : β} (h : b ∈ l) :
    ∃ c, (ofValues key l).lookup (key b) = some c := by
  induction l using List.reverseRecOn with
  | nil => cases h
  | append_singleton l c ih =>
    rw [ofValues_concat, lookup_insert]
    split_ifs with hkey
    · exact ⟨c, rfl⟩
    · rcases List.mem_append.mp h with h | h
      · exact ih h
      · rw [List.mem_singleton.mp h] at hkey
        exact absurd rfl hkey

/-- A table is made again from its values if and only if each stands under its own key. -/
theorem lookup_ofValues_iff {key : β → α} {l : List β} {s : Table α β}
    (hl : ∀ b ∈ l, b ∈ s.values) :
    (∀ a, (ofValues key l).lookup a = s.lookup a) ↔
      ∀ a b, s.lookup a = some b → key b = a ∧ b ∈ l := by
  constructor
  · intro h a b hab
    rw [← h] at hab
    exact (mem_of_lookup_ofValues hab).symm
  · intro h a
    have hkey {b : β} (hb : b ∈ l) : s.lookup (key b) = some b := by
      obtain ⟨a', ha'⟩ := mem_values.mp (hl b hb)
      rw [(h a' b ha').1]
      exact ha'
    cases hlookup : s.lookup a with
    | none =>
      refine Option.eq_none_iff_forall_ne_some.mpr fun b hb => ?_
      obtain ⟨hmem, rfl⟩ := mem_of_lookup_ofValues hb
      rw [hkey hmem] at hlookup
      cases hlookup
    | some b =>
      obtain ⟨rfl, hmem⟩ := h a b hlookup
      obtain ⟨c, hc⟩ : ∃ c, (ofValues key l).lookup (key b) = some c :=
        exists_lookup_ofValues hmem
      obtain ⟨hmem', hsame⟩ := mem_of_lookup_ofValues hc
      rw [hc, ← hlookup, ← hsame, hkey hmem']

end Table

end AegisDB
