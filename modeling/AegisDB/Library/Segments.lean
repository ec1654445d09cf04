import AegisDB.Library.Table
import Mathlib.Data.List.Sort
import Mathlib.Tactic

/-!
# Logs in segments

A log that is kept in numbered segments is a list of entries with the numbers of their segments.
The numbers never go down along the list, so the segments one after another are the log.  The
segments that are there are the keys of a table, in their order.
-/

namespace AegisDB

def Table.sortedKeys {β : Type*} (t : Table ℕ β) : List ℕ :=
  t.keys.insertionSort (· ≤ ·)

def segment {α : Type*} (l : List (ℕ × α)) (n : ℕ) : List α :=
  (l.filter fun e => e.1 = n).map Prod.snd

def Table.eraseAll {β : Type*} (t : Table ℕ β) (keys : List ℕ) : Table ℕ β :=
  keys.foldl (fun t n => t.erase n) t

section Keys

variable {β : Type*} {t : Table ℕ β}

theorem mem_sortedKeys {n : ℕ} : n ∈ t.sortedKeys ↔ n ∈ t := by
  rw [Table.sortedKeys, List.mem_insertionSort, AList.mem_keys]

theorem sortedKeys_pairwise (t : Table ℕ β) : t.sortedKeys.Pairwise (· < ·) := by
  have hsorted : t.sortedKeys.Pairwise (· ≤ ·) := List.pairwise_insertionSort _ _
  have hnodup : t.sortedKeys.Nodup := (List.perm_insertionSort _ _).nodup_iff.mpr t.keys_nodup
  exact (hsorted.and hnodup).imp fun h => lt_of_le_of_ne h.1 h.2

theorem le_of_getLast?_sortedKeys {m n : ℕ} (hn : t.sortedKeys.getLast? = some n) (hm : m ∈ t) :
    m ≤ n := by
  obtain ⟨front, hfront⟩ := List.getLast?_eq_some_iff.mp hn
  have hmem : m ∈ t.sortedKeys := mem_sortedKeys.mpr hm
  have hsorted := sortedKeys_pairwise t
  rw [hfront] at hmem hsorted
  rcases List.mem_append.mp hmem with hmem | hmem
  · exact ((List.pairwise_append.mp hsorted).2.2 m hmem n (List.mem_singleton_self n)).le
  · exact (List.mem_singleton.mp hmem).le

theorem lookup_eraseAll (t : Table ℕ β) (keys : List ℕ) (n : ℕ) :
    (t.eraseAll keys).lookup n = if n ∈ keys then none else t.lookup n := by
  unfold Table.eraseAll
  induction keys generalizing t with
  | nil => simp
  | cons m keys ih =>
    rw [List.foldl_cons, ih, Table.lookup_erase]
    by_cases hn : n ∈ keys
    · rw [if_pos hn, if_pos (List.mem_cons_of_mem _ hn)]
    · by_cases hm : n = m
      · simp [hm]
      · simp [hn, hm]

/-- An erasure takes the listed keys and no other. -/
theorem mem_eraseAll (t : Table ℕ β) (keys : List ℕ) (n : ℕ) :
    n ∈ t.eraseAll keys ↔ n ∈ t ∧ n ∉ keys := by
  rw [← AList.lookup_isSome, lookup_eraseAll]
  split_ifs with h
  · simp [h]
  · simp [h, AList.lookup_isSome]

end Keys

section Segments

variable {α : Type*} {l l' : List (ℕ × α)} {n : ℕ}

theorem segment_append (l l' : List (ℕ × α)) (n : ℕ) :
    segment (l ++ l') n = segment l n ++ segment l' n := by
  rw [segment, List.filter_append, List.map_append]
  rfl

theorem mem_segment {a : α} : a ∈ segment l n ↔ (n, a) ∈ l := by
  simp only [segment, List.mem_map, List.mem_filter, decide_eq_true_eq]
  constructor
  · rintro ⟨⟨m, b⟩, ⟨hmem, rfl⟩, rfl⟩
    exact hmem
  · intro hmem
    exact ⟨(n, a), ⟨hmem, rfl⟩, rfl⟩

theorem segment_eq_nil (h : ∀ e ∈ l, e.1 ≠ n) : segment l n = [] := by
  have hnone : (l.filter fun e => e.1 = n) = [] :=
    List.filter_eq_nil_iff.mpr fun e he => by simpa using h e he
  rw [segment, hnone]
  rfl

theorem segment_singleton (e : ℕ × α) (n : ℕ) :
    segment [e] n = if e.1 = n then [e.2] else [] := by
  by_cases h : e.1 = n <;> simp [segment, h]

/-- Segments in order of their numbers are the whole log. -/
theorem flatMap_segment {keys : List ℕ} (hkeys : keys.Pairwise (· < ·))
    (hsorted : l.Pairwise fun a b => a.1 ≤ b.1) (hmem : ∀ e ∈ l, e.1 ∈ keys) :
    keys.flatMap (segment l) = l.map Prod.snd := by
  induction l with
  | nil => simp [segment]
  | cons e l ih =>
    obtain ⟨hle, hsorted⟩ := List.pairwise_cons.mp hsorted
    have ih := ih hsorted fun e' he' => hmem e' (List.mem_cons_of_mem _ he')
    obtain ⟨before, after, rfl⟩ := List.append_of_mem (hmem e List.mem_cons_self)
    obtain ⟨-, hafter, hlt⟩ := List.pairwise_append.mp hkeys
    have hbefore (n : ℕ) (hn : n ∈ before) : segment l n = [] := by
      refine segment_eq_nil fun e' he' heq => ?_
      have := hle e' he'
      have := hlt n hn e.1 List.mem_cons_self
      omega
    have hcons (n : ℕ) : segment (e :: l) n = segment [e] n ++ segment l n :=
      segment_append [e] l n
    have hfront : before.flatMap (segment (e :: l)) = [] := by
      refine List.flatMap_eq_nil_iff.mpr fun n hn => ?_
      rw [hcons, hbefore n hn, segment_singleton, if_neg (hlt n hn e.1 List.mem_cons_self).ne']
      rfl
    have hback : after.flatMap (segment (e :: l)) = after.flatMap (segment l) := by
      refine List.flatMap_congr fun n hn => ?_
      rw [hcons, segment_singleton, if_neg ((List.pairwise_cons.mp hafter).1 n hn).ne]
      rfl
    have hfront' : before.flatMap (segment l) = [] := List.flatMap_eq_nil_iff.mpr hbefore
    rw [List.flatMap_append, hfront', List.flatMap_cons, List.nil_append] at ih
    rw [List.flatMap_append, hfront, List.flatMap_cons, List.nil_append, hcons, segment_singleton,
      if_pos rfl, hback, List.map_cons, ← ih, List.append_assoc, List.singleton_append]

/-- The files of a table in order give what is logged under its keys. -/
theorem flatMap_sortedKeys {β : Type*} (t : Table ℕ β)
    (hsorted : l.Pairwise fun a b => a.1 ≤ b.1) :
    t.sortedKeys.flatMap (segment l) = (l.filter fun e => e.1 ∈ t).map Prod.snd := by
  rw [← flatMap_segment (sortedKeys_pairwise t) (hsorted.filter _) fun e he =>
    mem_sortedKeys.mpr (by simpa using (List.mem_filter.mp he).2)]
  refine List.flatMap_congr fun n hn => ?_
  rw [segment, segment, List.filter_filter]
  congr 1
  refine List.filter_congr fun e _ => ?_
  by_cases he : e.1 = n
  · simp [he, mem_sortedKeys.mp hn]
  · simp [he]

theorem flatMap_sublist {keys : List ℕ} {f g : ℕ → List α}
    (h : ∀ n ∈ keys, (f n).Sublist (g n)) : (keys.flatMap f).Sublist (keys.flatMap g) := by
  induction keys with
  | nil => exact List.Sublist.slnil
  | cons n keys ih =>
    rw [List.flatMap_cons, List.flatMap_cons]
    exact (h n List.mem_cons_self).append (ih fun m hm => h m (List.mem_cons_of_mem _ hm))

end Segments

end AegisDB
