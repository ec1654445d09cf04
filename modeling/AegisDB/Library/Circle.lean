import Mathlib.Data.List.Basic
import Mathlib.Data.List.Sort
import Mathlib.Data.Prod.Lex
import Mathlib.Data.Set.Basic
import Mathlib.Order.BooleanAlgebra.Defs
import Mathlib.Tactic

/-!
# Points on a circle

A linear order is closed to a circle: from a point one goes up, and behind the last point one is
at the first again.  Of some marked points, the first that is met from a point is the owner of the
point.  When marks are taken away, the owner stays the owner unless its own mark is taken away; this
is all there is to consistent hashing.

The marks are the entries of a map whose keys are in order, of which the owner is found by a search
from the point on, and from the beginning if there is nothing.
-/

namespace AegisDB

variable {α β : Type*} [LinearOrder α]

/-! ## The first mark on the way -/

/-- How far a place is from a point: the places below it come after all others. -/
def clockwise (point place : α) : Bool ×ₗ α :=
  toLex (decide (place < point), place)

theorem clockwise_le_of_le {point a b : α} (ha : point ≤ a) (hab : point ≤ b → a ≤ b) :
    clockwise point a ≤ clockwise point b := by
  rw [clockwise, clockwise, decide_eq_false (not_lt.mpr ha), Prod.Lex.toLex_le_toLex]
  by_cases hb : b < point
  · rw [decide_eq_true hb]
    exact Or.inl Bool.false_lt_true
  · rw [decide_eq_false hb]
    exact Or.inr ⟨rfl, hab (not_lt.mp hb)⟩

theorem clockwise_le_of_lt {point a b : α} (hab : a ≤ b) (hb : b < point) :
    clockwise point a ≤ clockwise point b := by
  rw [clockwise, clockwise, decide_eq_true hb, decide_eq_true (hab.trans_lt hb),
    Prod.Lex.toLex_le_toLex]
  exact Or.inr ⟨rfl, hab⟩

theorem clockwise_injective (point : α) : Function.Injective (clockwise point) := by
  intro a b h
  exact (Prod.ext_iff.mp (toLex.injective h)).2

def IsFirstMark (marks : Set (α × β)) (point : α) (mark : α × β) : Prop :=
  mark ∈ marks ∧ ∀ other ∈ marks, clockwise point mark.1 ≤ clockwise point other.1

namespace IsFirstMark

variable {marks fewer : Set (α × β)} {point : α} {mark mark' : α × β}

/-- A first mark stays first among fewer. -/
theorem of_subset (h : IsFirstMark marks point mark) (hsub : fewer ⊆ marks) (hmem : mark ∈ fewer) :
    IsFirstMark fewer point mark :=
  ⟨hmem, fun other hother => h.2 other (hsub hother)⟩

/-- Marks at different places have one first mark. -/
theorem unique (hplace : ∀ a ∈ marks, ∀ b ∈ marks, a.1 = b.1 → a = b)
    (h : IsFirstMark marks point mark) (h' : IsFirstMark marks point mark') : mark = mark' :=
  hplace mark h.1 mark' h'.1
    (clockwise_injective point (le_antisymm (h.2 mark' h'.1) (h'.2 mark h.1)))

end IsFirstMark

/-! ## Maps in the order of their keys -/

/-- A map, as the list of its entries in the order of their keys. -/
structure OrderedTable (α β : Type*) [LinearOrder α] where
  entries : List (α × β)
  ascending : entries.Pairwise fun a b => a.1 < b.1

namespace OrderedTable

/-- The entries with one more, in the place of the one that has its key. -/
def insertEntry (a : α) (b : β) : List (α × β) → List (α × β)
  | [] => [(a, b)]
  | e :: l =>
    if a < e.1 then (a, b) :: e :: l
    else if a = e.1 then (a, b) :: l
    else e :: insertEntry a b l

/-- An insertion replaces what the key had. -/
theorem mem_insertEntry {a : α} {b : β} {l : List (α × β)}
    (hl : l.Pairwise fun x y => x.1 < y.1) {e : α × β} :
    e ∈ insertEntry a b l ↔ e = (a, b) ∨ e ∈ l ∧ e.1 ≠ a := by
  induction l with
  | nil => simp [insertEntry]
  | cons d l ih =>
    obtain ⟨hd, hl⟩ := List.pairwise_cons.mp hl
    have habove : a ≤ d.1 → e ∈ l → e.1 ≠ a := fun hle he => (hle.trans_lt (hd e he)).ne'
    rw [insertEntry]
    split_ifs with hlt heq
    · rw [List.mem_cons, List.mem_cons]
      refine or_congr_right ⟨fun h => ⟨h, ?_⟩, fun h => h.1⟩
      rcases h with rfl | h
      · exact hlt.ne'
      · exact habove hlt.le h
    · rw [List.mem_cons, List.mem_cons]
      refine or_congr_right ⟨fun h => ⟨Or.inr h, habove heq.le h⟩, ?_⟩
      rintro ⟨rfl | h, hne⟩
      · exact absurd heq.symm hne
      · exact h
    · rw [List.mem_cons, List.mem_cons, ih hl]
      constructor
      · rintro (rfl | rfl | ⟨h, hne⟩)
        · exact Or.inr ⟨Or.inl rfl, Ne.symm heq⟩
        · exact Or.inl rfl
        · exact Or.inr ⟨Or.inr h, hne⟩
      · rintro (rfl | ⟨rfl | h, hne⟩)
        · exact Or.inr (Or.inl rfl)
        · exact Or.inl rfl
        · exact Or.inr (Or.inr ⟨h, hne⟩)

theorem pairwise_insertEntry {a : α} {b : β} {l : List (α × β)}
    (hl : l.Pairwise fun x y => x.1 < y.1) :
    (insertEntry a b l).Pairwise fun x y => x.1 < y.1 := by
  induction l with
  | nil => exact List.pairwise_singleton _ _
  | cons d l ih =>
    have hall := List.pairwise_cons.mp hl
    rw [insertEntry]
    split_ifs with hlt heq
    · refine List.pairwise_cons.mpr ⟨fun e he => ?_, hl⟩
      rcases List.mem_cons.mp he with rfl | he
      · exact hlt
      · exact hlt.trans (hall.1 e he)
    · subst heq
      exact List.pairwise_cons.mpr hall
    · refine List.pairwise_cons.mpr ⟨fun e he => ?_, ih hall.2⟩
      rcases (mem_insertEntry hall.2).mp he with rfl | ⟨he, -⟩
      · exact lt_of_le_of_ne (not_lt.mp hlt) (Ne.symm heq)
      · exact hall.1 e he

def empty : OrderedTable α β :=
  ⟨[], List.Pairwise.nil⟩

def insert (a : α) (b : β) (t : OrderedTable α β) : OrderedTable α β :=
  ⟨insertEntry a b t.entries, pairwise_insertEntry t.ascending⟩

def retain (p : α → β → Bool) (t : OrderedTable α β) : OrderedTable α β :=
  ⟨t.entries.filter fun e => p e.1 e.2, t.ascending.filter _⟩

def rangeFrom (t : OrderedTable α β) (a : α) : List (α × β) :=
  t.entries.filter fun e => decide (a ≤ e.1)

instance [DecidableEq β] : DecidableEq (OrderedTable α β) := fun s t =>
  decidable_of_iff (s.entries = t.entries)
    ⟨fun h => by cases s; cases t; cases h; rfl, fun h => h ▸ rfl⟩

variable {t s : OrderedTable α β} {a : α} {b : β} {e : α × β}

@[simp] theorem not_mem_empty : e ∉ (empty : OrderedTable α β).entries :=
  List.not_mem_nil

@[simp] theorem mem_insert :
    e ∈ (t.insert a b).entries ↔ e = (a, b) ∨ e ∈ t.entries ∧ e.1 ≠ a :=
  mem_insertEntry t.ascending

@[simp] theorem mem_retain {p : α → β → Bool} :
    e ∈ (t.retain p).entries ↔ e ∈ t.entries ∧ p e.1 e.2 = true :=
  List.mem_filter

/-- A table is what it holds: the order of entries is forced. -/
theorem ext_mem (h : ∀ e, e ∈ t.entries ↔ e ∈ s.entries) : t = s := by
  have hnodup (u : OrderedTable α β) : u.entries.Nodup :=
    u.ascending.imp fun hlt heq => hlt.ne (congrArg Prod.fst heq)
  have hperm : t.entries.Perm s.entries := (List.perm_ext_iff_of_nodup (hnodup t) (hnodup s)).mpr h
  have hentries : t.entries = s.entries :=
    hperm.eq_of_pairwise (fun _ _ _ _ hab hba => absurd hab hba.asymm) t.ascending s.ascending
  cases t
  cases s
  cases hentries
  rfl

theorem eq_of_key_eq {d : α × β} (he : e ∈ t.entries) (hd : d ∈ t.entries) (hkey : e.1 = d.1) :
    e = d := by
  have hkeys : (t.entries.map Prod.fst).Nodup :=
    List.pairwise_map.mpr (t.ascending.imp fun hlt => hlt.ne)
  exact List.inj_on_of_nodup_map hkeys he hd hkey

/-! ## The owner of a point -/

/-- The first entry from a point on, or else the first of all. -/
def owner (t : OrderedTable α β) (point : α) : Option (α × β) :=
  (t.rangeFrom point).head?.or t.entries.head?

theorem le_of_head?_eq {l : List (α × β)} (hl : l.Pairwise fun x y => x.1 < y.1)
    (h : l.head? = some e) : e ∈ l ∧ ∀ d ∈ l, e.1 ≤ d.1 := by
  cases l with
  | nil => cases h
  | cons c l =>
    obtain rfl := Option.some.inj h
    refine ⟨List.mem_cons_self, fun d hd => ?_⟩
    rcases List.mem_cons.mp hd with rfl | hd
    · exact le_rfl
    · exact ((List.pairwise_cons.mp hl).1 d hd).le

theorem mem_rangeFrom {point : α} :
    e ∈ t.rangeFrom point ↔ e ∈ t.entries ∧ point ≤ e.1 := by
  rw [rangeFrom, List.mem_filter, decide_eq_true_eq]

/-- The scan with its wrap-around finds the first mark clockwise. -/
theorem isFirstMark_of_owner {point : α} (h : t.owner point = some e) :
    IsFirstMark {d | d ∈ t.entries} point e := by
  rw [owner, Option.or_eq_some_iff] at h
  rcases h with h | ⟨hnone, h⟩
  · obtain ⟨hmem, hleast⟩ := le_of_head?_eq (t.ascending.filter _) h
    obtain ⟨hmem, hle⟩ := mem_rangeFrom.mp hmem
    exact ⟨hmem, fun d hd => clockwise_le_of_le hle fun hd' =>
      hleast d (mem_rangeFrom.mpr ⟨hd, hd'⟩)⟩
  · obtain ⟨hmem, hleast⟩ := le_of_head?_eq t.ascending h
    refine ⟨hmem, fun d hd => clockwise_le_of_lt (hleast d hd) (not_le.mp fun hle => ?_)⟩
    rw [List.head?_eq_none_iff] at hnone
    exact List.not_mem_nil (hnone ▸ mem_rangeFrom.mpr ⟨hd, hle⟩)

theorem owner_eq_none_iff {point : α} : t.owner point = none ↔ ∀ e, e ∉ t.entries := by
  rw [owner, Option.or_eq_none_iff, List.head?_eq_none_iff, List.head?_eq_none_iff,
    ← List.eq_nil_iff_forall_not_mem]
  exact ⟨fun h => h.2, fun h => ⟨by rw [rangeFrom, h, List.filter_nil], h⟩⟩

/-- The owner is the first mark, whatever the history of the table. -/
theorem owner_eq_some_iff {point : α} :
    t.owner point = some e ↔ IsFirstMark {d | d ∈ t.entries} point e := by
  refine ⟨isFirstMark_of_owner, fun h => ?_⟩
  cases hfound : t.owner point with
  | none => exact absurd h.1 (owner_eq_none_iff.mp hfound e)
  | some d =>
    rw [(isFirstMark_of_owner hfound).unique (fun _ ha _ hb => eq_of_key_eq ha hb) h]

/-- An owner that stays keeps its points when others leave. -/
theorem owner_of_subset {point : α} (hsub : ∀ d ∈ s.entries, d ∈ t.entries)
    (h : t.owner point = some e) (hmem : e ∈ s.entries) : s.owner point = some e :=
  owner_eq_some_iff.mpr ((owner_eq_some_iff.mp h).of_subset hsub hmem)

end OrderedTable

end AegisDB
