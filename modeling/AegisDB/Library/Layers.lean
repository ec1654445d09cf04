import Mathlib.Data.List.Destutter
import Mathlib.Data.List.Sort
import Mathlib.Tactic

/-!
# Layers of entries under keys

Entries that are written one after another are kept in layers: each layer has entries that were
written together, and an interval that their keys should be in.  A reader that is interested in a
window takes the layers whose intervals meet it, those with the latest end first, and of each key
the first entry that it meets.

The layers are *current* if this entry is the last one that was written, whatever the window
(`Layers.Current`).  They stay so when a layer is added whose entries are all the last ones already,
or are in its interval and not in a layer that ends as late (`Layers.Current.concat`).
-/

namespace AegisDB

namespace Layers

variable {α κ τ : Type*}

/-! ## The first and the last entry under a key -/

section Keys

variable [DecidableEq κ] (key : α → κ)

def firstAt (k : κ) (l : List α) : Option α :=
  l.find? fun a => key a = k

def lastAt (k : κ) (l : List α) : Option α :=
  firstAt key k l.reverse

variable {key} {k : κ} {l l' : List α} {a : α}

theorem firstAt_append : firstAt key k (l ++ l') = (firstAt key k l).or (firstAt key k l') :=
  List.find?_append

theorem lastAt_append : lastAt key k (l ++ l') = (lastAt key k l').or (lastAt key k l) := by
  rw [lastAt, List.reverse_append, firstAt_append]
  rfl

theorem firstAt_cons : firstAt key k (a :: l) = if key a = k then some a else firstAt key k l := by
  rw [firstAt, List.find?_cons]
  by_cases h : key a = k
  · rw [if_pos h, decide_eq_true h]
  · rw [if_neg h, decide_eq_false h]
    rfl

theorem lastAt_concat :
    lastAt key k (l ++ [a]) = if key a = k then some a else lastAt key k l := by
  rw [lastAt, List.reverse_append, List.reverse_singleton, List.singleton_append, firstAt_cons]
  rfl

theorem firstAt_eq_none : firstAt key k l = none ↔ ∀ a ∈ l, key a ≠ k := by
  simp only [firstAt, List.find?_eq_none, decide_eq_true_eq, ne_eq]

theorem lastAt_eq_none : lastAt key k l = none ↔ ∀ a ∈ l, key a ≠ k := by
  simp only [lastAt, firstAt_eq_none, List.mem_reverse]

theorem key_of_firstAt (h : firstAt key k l = some a) : key a = k :=
  of_decide_eq_true (List.find?_some (p := fun a => decide (key a = k)) h)

theorem mem_of_firstAt (h : firstAt key k l = some a) : a ∈ l :=
  List.mem_of_find?_eq_some h

theorem key_of_lastAt (h : lastAt key k l = some a) : key a = k :=
  key_of_firstAt h

theorem mem_of_lastAt (h : lastAt key k l = some a) : a ∈ l :=
  List.mem_reverse.mp (mem_of_firstAt h)

/-- A filter that keeps the whole key does not change its first entry. -/
theorem firstAt_filter {p : α → Bool} (h : ∀ a, key a = k → p a = true) :
    firstAt key k (l.filter p) = firstAt key k l := by
  rw [firstAt, firstAt, List.find?_filter]
  refine congrArg (List.find? · l) (funext fun a => decide_eq_decide.mpr ?_)
  rw [decide_eq_true_iff]
  exact ⟨fun ha => ha.2, fun ha => ⟨h a ha, ha⟩⟩

end Keys

/-! ## Sorting by a key, and keeping the first entry of each -/

section Sorting

variable [LinearOrder κ] (key : α → κ)

/-- Sort by a key, leaving entries under one key in their order. -/
def sortByKey (l : List α) : List α :=
  l.insertionSort fun a b => key a ≤ key b

/-- Of entries next to each other under one key keep the first. -/
def dedupByKey (l : List α) : List α :=
  l.destutter fun a b => key a ≠ key b

variable {key} {k : κ} {l : List α} {a : α}

theorem sortByKey_perm (l : List α) : (sortByKey key l).Perm l :=
  List.perm_insertionSort _ l

theorem pairwise_sortByKey (l : List α) : (sortByKey key l).Pairwise fun a b => key a ≤ key b := by
  have htotal : Std.Total fun a b : α => key a ≤ key b := ⟨fun a b => le_total (key a) (key b)⟩
  have htrans : IsTrans α fun a b => key a ≤ key b := ⟨fun _ _ _ => le_trans⟩
  exact List.pairwise_insertionSort _ l

theorem firstAt_orderedInsert (l : List α) :
    firstAt key k (l.orderedInsert (fun a b => key a ≤ key b) a) =
      if key a = k then some a else firstAt key k l := by
  induction l with
  | nil => rw [List.orderedInsert_nil, firstAt_cons]
  | cons b l ih =>
    by_cases hle : key a ≤ key b
    · rw [List.orderedInsert_cons_of_le _ l hle, firstAt_cons]
    · rw [List.orderedInsert_of_not_le _ l hle, firstAt_cons, firstAt_cons, ih]
      split_ifs with hb ha
      · exact absurd (ha.trans hb.symm).le hle
      all_goals rfl

/-- Sorting is stable: the first entry of a key stays first. -/
theorem firstAt_sortByKey (l : List α) : firstAt key k (sortByKey key l) = firstAt key k l := by
  induction l with
  | nil => rfl
  | cons a l ih =>
    rw [sortByKey, List.insertionSort_cons, firstAt_orderedInsert, firstAt_cons]
    exact congrArg (ite (key a = k) (some a) ·) ih

theorem firstAt_dedupByKey (l : List α) : firstAt key k (dedupByKey key l) = firstAt key k l := by
  cases l with
  | nil => rfl
  | cons a l =>
    rw [dedupByKey, List.destutter_cons']
    induction l generalizing a with
    | nil => rfl
    | cons b l ih =>
      by_cases hab : key a = key b
      · rw [List.destutter'_cons_neg l (fun hne => hne hab), ih, firstAt_cons, firstAt_cons,
          firstAt_cons, ← hab]
        split_ifs <;> rfl
      · rw [List.destutter'_cons_pos l hab, firstAt_cons, ih, firstAt_cons (a := a)]

theorem pairwise_dedupByKey_sortByKey (l : List α) :
    (dedupByKey key (sortByKey key l)).Pairwise fun a b => key a < key b := by
  have htrans : Trans (fun a b : α => key a < key b) (fun a b => key a < key b)
      fun a b => key a < key b := ⟨lt_trans⟩
  have hne := List.isChain_destutter (fun a b => key a ≠ key b) (sortByKey key l)
  have hle : (dedupByKey key (sortByKey key l)).Pairwise fun a b => key a ≤ key b :=
    (pairwise_sortByKey l).sublist (List.destutter_sublist _ _)
  rw [← List.isChain_iff_pairwise]
  refine List.isChain_iff_getElem.mpr fun i hi => lt_of_le_of_ne ?_ ?_
  · exact List.isChain_iff_getElem.mp hle.isChain i hi
  · exact List.isChain_iff_getElem.mp hne i hi

theorem mem_iff_firstAt (h : l.Pairwise fun a b => key a < key b) :
    a ∈ l ↔ firstAt key (key a) l = some a := by
  refine ⟨fun ha => ?_, mem_of_firstAt⟩
  induction l with
  | nil => cases ha
  | cons b l ih =>
    rw [List.pairwise_cons] at h
    rw [firstAt_cons]
    rcases List.mem_cons.mp ha with rfl | ha
    · exact if_pos rfl
    · rw [if_neg (h.1 a ha).ne, ih h.2 ha]

/-- What a query returns: the first entry of each key. -/
theorem mem_dedupByKey_sortByKey :
    a ∈ dedupByKey key (sortByKey key l) ↔ firstAt key (key a) l = some a := by
  rw [mem_iff_firstAt (pairwise_dedupByKey_sortByKey l), firstAt_dedupByKey, firstAt_sortByKey]

end Sorting

/-! ## Sorting one entry more -/

section Concat

variable {r : α → α → Prop} [DecidableRel r] {a : α}

theorem orderedInsert_append_left (u : List α) {w : List α} (h : ∀ b ∈ w, r a b) :
    (u ++ w).orderedInsert r a = u.orderedInsert r a ++ w := by
  induction u with
  | nil =>
    cases w with
    | nil => rfl
    | cons b w => exact List.orderedInsert_cons_of_le r w (h b List.mem_cons_self)
  | cons b u ih =>
    rw [List.cons_append]
    by_cases hab : r a b
    · rw [List.orderedInsert_cons_of_le r _ hab, List.orderedInsert_cons_of_le r _ hab]
      rfl
    · rw [List.orderedInsert_of_not_le r _ hab, List.orderedInsert_of_not_le r _ hab, ih]
      rfl

theorem orderedInsert_append_right {u : List α} (w : List α) (h : ∀ b ∈ u, ¬ r a b) :
    (u ++ w).orderedInsert r a = u ++ w.orderedInsert r a := by
  induction u with
  | nil => rfl
  | cons b u ih =>
    rw [List.forall_mem_cons] at h
    rw [List.cons_append, List.orderedInsert_of_not_le r _ h.1, ih h.2]
    rfl

variable [LinearOrder κ]

/-- One entry more at the end of a list is put behind those with at most its key. -/
theorem sortByKey_concat (key : α → κ) (l : List α) (c : α) :
    ∃ u v, sortByKey key l = u ++ v ∧ sortByKey key (l ++ [c]) = u ++ c :: v ∧
      (∀ a ∈ u, key a ≤ key c) ∧ ∀ a ∈ v, key c < key a := by
  induction l with
  | nil => exact ⟨[], [], rfl, rfl, by simp, by simp⟩
  | cons a l ih =>
    obtain ⟨u, v, hl, hlc, hu, hv⟩ := ih
    rw [sortByKey] at hl hlc
    rw [List.cons_append, sortByKey, sortByKey, List.insertionSort_cons, List.insertionSort_cons,
      hl, hlc]
    by_cases hac : key a ≤ key c
    · refine ⟨u.orderedInsert (fun a b => key a ≤ key b) a, v, ?_, ?_, ?_, hv⟩
      · exact orderedInsert_append_left u fun b hb => hac.trans (hv b hb).le
      · refine orderedInsert_append_left u fun b hb => ?_
        rcases List.mem_cons.mp hb with rfl | hb
        · exact hac
        · exact hac.trans (hv b hb).le
      · intro b hb
        rcases (List.mem_orderedInsert _).mp hb with rfl | hb
        · exact hac
        · exact hu b hb
    · have hnot : ∀ b ∈ u, ¬ key a ≤ key b := fun b hb hab => hac (hab.trans (hu b hb))
      refine ⟨u, v.orderedInsert (fun a b => key a ≤ key b) a, ?_, ?_, hu, ?_⟩
      · exact orderedInsert_append_right v hnot
      · rw [orderedInsert_append_right (c :: v) hnot, List.orderedInsert_of_not_le (fun a b => key a ≤ key b) v hac]
      · intro b hb
        rcases (List.mem_orderedInsert _).mp hb with rfl | hb
        · exact not_le.mp hac
        · exact hv b hb

end Concat

/-! ## Layers -/

/-- Entries that were written together, and an interval. -/
structure Layer (τ α : Type*) where
  first : τ
  last : τ
  entries : List α

theorem firstAt_flatMap_eq_none [DecidableEq κ] {key : α → κ} {k : κ}
    {layers : List (Layer τ α)} (h : ∀ layer ∈ layers, ∀ e ∈ layer.entries, key e ≠ k) :
    firstAt key k (layers.flatMap Layer.entries) = none := by
  refine firstAt_eq_none.mpr fun e he => ?_
  obtain ⟨layer, hlayer, he⟩ := List.mem_flatMap.mp he
  exact h layer hlayer e he

section Reading

variable [LinearOrder τ]

def Layer.Meets (a b : τ) (layer : Layer τ α) : Prop :=
  a ≤ layer.last ∧ layer.first ≤ b

instance (a b : τ) (layer : Layer τ α) : Decidable (layer.Meets a b) :=
  inferInstanceAs (Decidable (_ ∧ _))

/-- The layers whose intervals meet a window, those with the latest end first. -/
def inWindow (a b : τ) (layers : List (Layer τ α)) : List (Layer τ α) :=
  sortByKey (fun layer => OrderDual.toDual layer.last)
    (layers.filter fun layer => layer.Meets a b)

def read (a b : τ) (layers : List (Layer τ α)) : List α :=
  (inWindow a b layers).flatMap Layer.entries

variable [DecidableEq κ] {key : α → κ} {k : κ} {a b : τ} {layers : List (Layer τ α)}
  {layer : Layer τ α}

theorem mem_of_mem_inWindow (h : layer ∈ inWindow a b layers) : layer ∈ layers :=
  List.mem_of_mem_filter ((sortByKey_perm _).mem_iff.mp h)

theorem inWindow_concat_of_not_meets (h : ¬ layer.Meets a b) :
    inWindow a b (layers ++ [layer]) = inWindow a b layers := by
  rw [inWindow, inWindow, List.filter_append, List.filter_singleton, decide_eq_false h]
  exact congrArg _ (List.append_nil _)

/-- A new layer is read behind none that ends before it. -/
theorem inWindow_concat_of_meets (layers : List (Layer τ α)) (h : layer.Meets a b) :
    ∃ u v, inWindow a b layers = u ++ v ∧ inWindow a b (layers ++ [layer]) = u ++ layer :: v ∧
      ∀ l ∈ u, layer.last ≤ l.last := by
  rw [inWindow, inWindow, List.filter_append, List.filter_singleton, decide_eq_true h]
  obtain ⟨u, v, hl, hlc, hu, -⟩ := sortByKey_concat
    (fun layer : Layer τ α => OrderDual.toDual layer.last)
    (layers.filter fun layer => layer.Meets a b) layer
  exact ⟨u, v, hl, hlc, fun l hlu => OrderDual.toDual_le_toDual.mp (hu l hlu)⟩

/-- A layer without the key changes nothing that is read under it. -/
theorem firstAt_read_concat_of_none (hnone : firstAt key k layer.entries = none) :
    firstAt key k (read a b (layers ++ [layer])) = firstAt key k (read a b layers) := by
  by_cases hmeets : layer.Meets a b
  · obtain ⟨u, v, hl, hlc, -⟩ := inWindow_concat_of_meets layers hmeets
    rw [read, read, hl, hlc, List.flatMap_append, List.flatMap_append, List.flatMap_cons,
      firstAt_append, firstAt_append, firstAt_append, hnone, Option.none_or]
  · rw [read, read, inWindow_concat_of_not_meets hmeets]

/-- A layer with the key is read first under it or not at all. -/
theorem firstAt_read_concat_of_some (a b : τ) (layers : List (Layer τ α)) {e : α}
    (hsome : firstAt key k layer.entries = some e) :
    firstAt key k (read a b (layers ++ [layer])) = firstAt key k (read a b layers) ∨
      firstAt key k (read a b (layers ++ [layer])) = some e := by
  by_cases hmeets : layer.Meets a b
  · obtain ⟨u, v, hl, hlc, -⟩ := inWindow_concat_of_meets layers hmeets
    rw [read, read, hl, hlc, List.flatMap_append, List.flatMap_append, List.flatMap_cons,
      firstAt_append, firstAt_append, firstAt_append, hsome, Option.some_or]
    cases firstAt key k (u.flatMap Layer.entries) with
    | none => exact Or.inr rfl
    | some e' => exact Or.inl rfl
  · rw [read, read, inWindow_concat_of_not_meets hmeets]
    exact Or.inl rfl

/-- The layer that ends last among those with the key is read first. -/
theorem firstAt_read_concat_of_lt {e : α} (hmeets : layer.Meets a b)
    (hsome : firstAt key k layer.entries = some e)
    (hlater : ∀ l ∈ layers, (∃ e ∈ l.entries, key e = k) → l.last < layer.last) :
    firstAt key k (read a b (layers ++ [layer])) = some e := by
  obtain ⟨u, v, hl, hlc, hu⟩ := inWindow_concat_of_meets layers hmeets
  have hbefore : firstAt key k (u.flatMap Layer.entries) = none := by
    refine firstAt_flatMap_eq_none fun l hlu e he hkey => ?_
    have hmem : l ∈ layers := by
      refine mem_of_mem_inWindow (a := a) (b := b) ?_
      rw [hl]
      exact List.mem_append_left v hlu
    exact absurd (hlater l hmem ⟨e, he, hkey⟩) (not_lt.mpr (hu l hlu))
  rw [read, hlc, List.flatMap_append, List.flatMap_cons, firstAt_append, firstAt_append, hbefore,
    Option.none_or, hsome, Option.some_or]

/-- Whatever the window, the first entry that is read under a key in it is the last that was
written. -/
def Current (key : α → κ) (grain : κ → τ) (layers : List (Layer τ α)) : Prop :=
  ∀ a b k, a ≤ grain k → grain k ≤ b →
    firstAt key k (read a b layers) = lastAt key k (layers.flatMap Layer.entries)

/-- The first of some entries under a key is the last. -/
def FirstIsLast (key : α → κ) (l : List α) : Prop :=
  ∀ e ∈ l, firstAt key (key e) l = lastAt key (key e) l

/-- A layer that may be added: each of its entries is the last under its key already, or is in the
interval of the layer and in no layer that ends as late. -/
def Fits (key : α → κ) (grain : κ → τ) (layers : List (Layer τ α)) (layer : Layer τ α) : Prop :=
  ∀ e ∈ layer.entries,
    firstAt key (key e) layer.entries = lastAt key (key e) (layers.flatMap Layer.entries) ∨
      (layer.first ≤ grain (key e) ∧ grain (key e) ≤ layer.last ∧
        ∀ l ∈ layers, (∃ e' ∈ l.entries, key e' = key e) → l.last < layer.last)

instance [DecidableEq α] (key : α → κ) (l : List α) : Decidable (FirstIsLast key l) :=
  inferInstanceAs (Decidable (∀ e ∈ l, firstAt key (key e) l = lastAt key (key e) l))

instance [DecidableEq α] (key : α → κ) (grain : κ → τ) (layers : List (Layer τ α))
    (layer : Layer τ α) : Decidable (Fits key grain layers layer) :=
  inferInstanceAs (Decidable (∀ e ∈ layer.entries, _ ∨ (_ ∧ _ ∧ ∀ l ∈ layers, _ → _)))

theorem current_nil (key : α → κ) (grain : κ → τ) : Current key grain [] :=
  fun _ _ _ _ _ => rfl

theorem FirstIsLast.firstAt_eq {l : List α} (h : FirstIsLast key l) (k : κ) :
    firstAt key k l = lastAt key k l := by
  cases hfirst : firstAt key k l with
  | none => exact (lastAt_eq_none.mpr (firstAt_eq_none.mp hfirst)).symm
  | some e =>
    obtain rfl := key_of_firstAt hfirst
    rw [← hfirst]
    exact h e (mem_of_firstAt hfirst)

/-- Reads stay current over a layer that fits. -/
theorem Current.concat {grain : κ → τ} (h : Current key grain layers)
    (hentries : FirstIsLast key layer.entries) (hfits : Fits key grain layers layer) :
    Current key grain (layers ++ [layer]) := by
  intro a b k ha hb
  have hwritten : lastAt key k ((layers ++ [layer]).flatMap Layer.entries) =
      (firstAt key k layer.entries).or (lastAt key k (layers.flatMap Layer.entries)) := by
    rw [List.flatMap_append, List.flatMap_singleton, lastAt_append, hentries.firstAt_eq]
  rw [hwritten]
  cases hfirst : firstAt key k layer.entries with
  | none => rw [firstAt_read_concat_of_none hfirst, Option.none_or, h a b k ha hb]
  | some e =>
    obtain rfl := key_of_firstAt hfirst
    rw [Option.some_or]
    rcases hfits e (mem_of_firstAt hfirst) with hsame | ⟨hstart, hend, hlater⟩
    · rcases firstAt_read_concat_of_some a b layers hfirst with
        hread | hread
      · rw [hread, h a b _ ha hb, ← hsame, hfirst]
      · exact hread
    · exact firstAt_read_concat_of_lt ⟨ha.trans hend, hstart.trans hb⟩ hfirst hlater

end Reading

end Layers

end AegisDB
