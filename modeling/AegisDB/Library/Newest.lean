import AegisDB.Library.Layers
import Mathlib.Data.Finset.Dedup

/-!
# The last keys of some entries

Entries are put in the order of their keys, and of each key the first is kept.  Who wants only the
entries under the last `n` keys may leave entries unread, but only those whose key is among the keys
that are read, or is before `n` of them.
-/

namespace AegisDB

namespace Layers

variable {α κ : Type*}

def lastEntries (n : ℕ) (l : List α) : List α :=
  l.drop (l.length - n)

theorem lastEntries_eq (n : ℕ) (l : List α) : lastEntries n l = (l.reverse.take n).reverse := by
  rw [List.reverse_take, List.reverse_reverse, List.length_reverse, lastEntries]

theorem lastEntries_inj {n : ℕ} {l l' : List α} :
    lastEntries n l = lastEntries n l' ↔ l.reverse.take n = l'.reverse.take n := by
  rw [lastEntries_eq, lastEntries_eq, List.reverse_inj]

theorem length_lastEntries (n : ℕ) (l : List α) :
    (lastEntries n l).length = min n l.length := by
  rw [lastEntries, List.length_drop]
  omega

variable [LinearOrder κ] {key : α → κ}

/-- The entries in the order of their keys, of each key the first. -/
def byKey (key : α → κ) (l : List α) : List α :=
  dedupByKey key (sortByKey key l)

def laterKeys (key : α → κ) (k : κ) (l : List α) : Finset κ :=
  (l.map key).toFinset.filter fun k' => k < k'

theorem laterKeys_mono {k : κ} {l l' : List α} (h : l ⊆ l') :
    laterKeys key k l ⊆ laterKeys key k l' := by
  refine Finset.filter_subset_filter _ fun k' hk' => ?_
  rw [List.mem_toFinset] at hk' ⊢
  exact List.map_subset key h hk'

theorem mem_map_byKey {k : κ} {l : List α} : k ∈ (byKey key l).map key ↔ k ∈ l.map key := by
  constructor
  · intro h
    obtain ⟨a, ha, rfl⟩ := List.mem_map.mp h
    exact List.mem_map_of_mem (mem_of_firstAt (mem_dedupByKey_sortByKey.mp ha))
  · intro h
    obtain ⟨a, ha, rfl⟩ := List.mem_map.mp h
    cases hfirst : firstAt key (key a) l with
    | none => exact absurd rfl (firstAt_eq_none.mp hfirst a ha)
    | some b =>
      have hb := key_of_firstAt hfirst
      rw [← hb]
      exact List.mem_map_of_mem (mem_dedupByKey_sortByKey.mpr (by rwa [hb]))

theorem length_byKey (key : α → κ) (l : List α) :
    (byKey key l).length = (l.map key).toFinset.card := by
  have hnodup : ((byKey key l).map key).Nodup :=
    List.pairwise_map.mpr ((pairwise_dedupByKey_sortByKey l).imp ne_of_lt)
  have hkeys : ((byKey key l).map key).toFinset = (l.map key).toFinset := by
    ext k
    rw [List.mem_toFinset, List.mem_toFinset, mem_map_byKey]
  rw [← hkeys, List.toFinset_card_of_nodup hnodup, List.length_map]

/-- The entries of the front, among those of the front and the rest. -/
theorem byKey_eq_filter (front rest : List α) :
    byKey key front = (byKey key (front ++ rest)).filter fun a => key a ∈ front.map key := by
  have hsorted : (byKey key front).Pairwise fun a b => key a < key b :=
    pairwise_dedupByKey_sortByKey front
  have hsorted' : ((byKey key (front ++ rest)).filter
      fun a => key a ∈ front.map key).Pairwise fun a b => key a < key b :=
    (pairwise_dedupByKey_sortByKey (front ++ rest)).sublist List.filter_sublist
  refine List.Perm.eq_of_pairwise (fun a b _ _ hab hba => absurd hab hba.asymm) hsorted hsorted' ?_
  refine (List.perm_ext_iff_of_nodup (hsorted.imp fun h heq => h.ne (congrArg key heq))
    (hsorted'.imp fun h heq => h.ne (congrArg key heq))).mpr fun a => ?_
  rw [byKey, byKey, List.mem_filter, mem_dedupByKey_sortByKey, mem_dedupByKey_sortByKey,
    firstAt_append, decide_eq_true_eq]
  constructor
  · intro h
    exact ⟨by rw [h, Option.some_or], List.mem_map_of_mem (mem_of_firstAt h)⟩
  · rintro ⟨h, hkey⟩
    cases hfirst : firstAt key (key a) front with
    | none =>
      obtain ⟨b, hb, heq⟩ := List.mem_map.mp hkey
      exact absurd heq (firstAt_eq_none.mp hfirst b hb)
    | some b => rwa [hfirst, Option.some_or] at h

/-- In a list in falling order, the first `n` of those that satisfy a condition are the first `n` of
all if and only if each of the others is behind `n` of them. -/
theorem take_filter_eq_iff {p : α → Bool} {l : List α}
    (h : l.Pairwise fun a b => key b < key a) (n : ℕ) :
    (l.filter p).take n = l.take n ↔
      ∀ a ∈ l, p a = true ∨ n ≤ ((l.filter p).filter fun b => key a < key b).length := by
  induction l generalizing n with
  | nil => exact iff_of_true rfl fun a ha => absurd ha List.not_mem_nil
  | cons x l ih =>
    rw [List.pairwise_cons] at h
    cases n with
    | zero =>
      rw [List.take_zero, List.take_zero]
      exact iff_of_true rfl fun _ _ => .inr (Nat.zero_le _)
    | succ n =>
      by_cases hx : p x = true
      · rw [List.filter_cons_of_pos hx, List.take_succ_cons, List.take_succ_cons, List.cons.injEq,
          and_iff_right rfl, ih h.2, List.forall_mem_cons, and_iff_right (.inl hx)]
        refine forall₂_congr fun a ha => or_congr_right ?_
        rw [List.filter_cons_of_pos (by simpa using h.1 a ha), List.length_cons,
          Nat.add_le_add_iff_right]
      · rw [List.filter_cons_of_neg hx, List.take_succ_cons]
        refine iff_of_false (fun heq => hx ?_) fun hall => ?_
        · have hmem : x ∈ l.filter p := by
            refine List.mem_of_mem_take (i := n + 1) ?_
            rw [heq]
            exact List.mem_cons_self
          exact (List.mem_filter.mp hmem).2
        · have hlen := (hall x List.mem_cons_self).resolve_left hx
          have hnil : ((l.filter p).filter fun b => key x < key b) = [] := by
            refine List.filter_eq_nil_iff.mpr fun b hb => ?_
            simpa using (h.1 b (List.mem_of_mem_filter hb)).le
          rw [hnil] at hlen
          exact absurd hlen (Nat.not_succ_le_zero n)

/-- **What may be left unread** by who wants the entries under the last `n` keys. -/
theorem lastEntries_byKey_iff (n : ℕ) (front rest : List α) :
    lastEntries n (byKey key front) = lastEntries n (byKey key (front ++ rest)) ↔
      ∀ a ∈ rest, key a ∈ front.map key ∨ n ≤ (laterKeys key (key a) front).card := by
  have hfalling : (byKey key (front ++ rest)).reverse.Pairwise fun a b => key b < key a :=
    List.pairwise_reverse.mpr (pairwise_dedupByKey_sortByKey (front ++ rest))
  -- the number of entries after a key is the number of keys after it
  have hcard : ∀ k, (((byKey key front).reverse).filter fun b => k < key b).length =
      (laterKeys key k front).card := by
    intro k
    have hnodup : (((byKey key front).filter fun b => k < key b).map key).Nodup :=
      List.pairwise_map.mpr (((pairwise_dedupByKey_sortByKey front).sublist
        List.filter_sublist).imp ne_of_lt)
    rw [List.filter_reverse, List.length_reverse, ← List.length_map key,
      ← List.toFinset_card_of_nodup hnodup]
    congr 1
    ext k'
    rw [List.mem_toFinset, laterKeys, Finset.mem_filter, List.mem_toFinset,
      ← mem_map_byKey (l := front),
      List.mem_map, List.mem_map]
    constructor
    · rintro ⟨a, ha, rfl⟩
      rw [List.mem_filter, decide_eq_true_eq] at ha
      exact ⟨⟨a, ha.1, rfl⟩, ha.2⟩
    · rintro ⟨⟨a, ha, rfl⟩, hlt⟩
      exact ⟨a, List.mem_filter.mpr ⟨ha, decide_eq_true hlt⟩, rfl⟩
  rw [lastEntries_inj, byKey_eq_filter front rest, ← List.filter_reverse,
    take_filter_eq_iff hfalling, List.filter_reverse, ← byKey_eq_filter front rest]
  simp only [hcard, decide_eq_true_eq, List.mem_reverse]
  constructor
  · intro h a ha
    have hmem : key a ∈ (byKey key (front ++ rest)).map key :=
      mem_map_byKey.mpr (List.mem_map_of_mem (List.mem_append_right front ha))
    obtain ⟨b, hb, hkey⟩ := List.mem_map.mp hmem
    rw [← hkey]
    exact h b hb
  · intro h a ha
    rcases List.mem_append.mp (mem_of_firstAt (mem_dedupByKey_sortByKey.mp ha)) with hfront | hrest
    · exact .inl (List.mem_map_of_mem hfront)
    · exact h a hrest

end Layers

end AegisDB
