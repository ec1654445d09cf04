import AegisDB.Library.Replicas
import Mathlib.Data.Set.Finite.Basic
import Mathlib.Order.BoundedOrder.Basic
import Mathlib.Tactic

/-!
# Registers that keep the write with the greatest stamp

A register has the value of one write and that write's stamp; a merge keeps the register with the
greater stamp, and the left one of two equal stamps.  So merges may be grouped in any way, and they
commute where equal stamps come with equal values.

A write stores a value or removes it.  A register *shows* a set of writes if its value is what the
greatest of them leaves behind.  No stamp of a removal is kept, so a register that shows the writes
of one side and is merged with one that shows the writes of another shows all of them if and only
if the greatest writes of the two sides agree (`LastWrite.Settled.shows_merge_iff`).

A replicated type whose state is a family of such registers shows, in every run whose writes and
merges meet these conditions, the writes that a replica has received (`Cells.settled`).
-/

namespace AegisDB

namespace LastWrite

/-- A value and the stamp it was written with. -/
@[ext] structure Register (ι V : Type*) where
  value : Option V
  stamp : ι

/-- A write: its stamp, and what it leaves behind, nothing if it removes. -/
structure Write (ι V : Type*) where
  stamp : ι
  outcome : Option V
deriving DecidableEq

variable {ι V : Type*} [LinearOrder ι]

/-! ## Merging -/

/-- The register with the greater stamp, the left one if they are equal. -/
def Register.merge (a b : Register ι V) : Register ι V :=
  if a.stamp < b.stamp then b else a

theorem Register.merge_of_lt {a b : Register ι V} (h : a.stamp < b.stamp) : a.merge b = b :=
  if_pos h

theorem Register.merge_of_le {a b : Register ι V} (h : b.stamp ≤ a.stamp) : a.merge b = a :=
  if_neg h.not_gt

theorem Register.merge_self (a : Register ι V) : a.merge a = a :=
  merge_of_le le_rfl

theorem Register.merge_assoc (a b c : Register ι V) :
    (a.merge b).merge c = a.merge (b.merge c) := by
  rcases lt_or_ge a.stamp b.stamp with hab | hab
  · rw [merge_of_lt hab]
    rcases lt_or_ge b.stamp c.stamp with hbc | hbc
    · rw [merge_of_lt hbc, merge_of_lt (hab.trans hbc)]
    · rw [merge_of_le hbc, merge_of_lt hab]
  · rw [merge_of_le hab]
    rcases lt_or_ge b.stamp c.stamp with hbc | hbc
    · rw [merge_of_lt hbc]
    · rw [merge_of_le hbc, merge_of_le hab, merge_of_le (hbc.trans hab)]

theorem Register.merge_comm_iff (a b : Register ι V) :
    a.merge b = b.merge a ↔ (a.stamp = b.stamp → a.value = b.value) := by
  rcases lt_trichotomy a.stamp b.stamp with h | h | h
  · rw [merge_of_lt h, merge_of_le h.le]
    exact iff_of_true rfl fun heq => absurd heq h.ne
  · rw [merge_of_le h.ge, merge_of_le h.le, Register.ext_iff]
    exact ⟨fun heq _ => heq.1, fun heq => ⟨heq h, h⟩⟩
  · rw [merge_of_le h.le, merge_of_lt h]
    exact iff_of_true rfl fun heq => absurd heq h.ne'

/-! ## The greatest write -/

/-- A write of the set with the greatest stamp. -/
def Latest (S : Set (Write ι V)) (w : Write ι V) : Prop :=
  w ∈ S ∧ ∀ w' ∈ S, w'.stamp ≤ w.stamp

/-- What the greatest writes leave behind, and nothing if there are none. -/
def Shows (S : Set (Write ι V)) (value : Option V) : Prop :=
  (S = ∅ → value = none) ∧ ∀ w, Latest S w → value = w.outcome

/-- Two writes leave the same behind, or the later one stores a value. -/
def Agree (w w' : Write ι V) : Prop :=
  w.outcome = w'.outcome ∨ (w.stamp < w'.stamp ∧ w'.outcome ≠ none) ∨
    (w'.stamp < w.stamp ∧ w.outcome ≠ none)

theorem Agree.symm {w w' : Write ι V} (h : Agree w w') : Agree w' w := by
  rcases h with h | h | h
  · exact Or.inl h.symm
  · exact Or.inr (Or.inr h)
  · exact Or.inr (Or.inl h)

variable {S S' : Set (Write ι V)}

theorem Latest.stamp_eq {w w' : Write ι V} (h : Latest S w) (h' : Latest S w') :
    w.stamp = w'.stamp :=
  le_antisymm (h'.2 w h.1) (h.2 w' h'.1)

theorem Latest.left {w : Write ι V} (h : Latest (S ∪ S') w) (hw : w ∈ S) : Latest S w :=
  ⟨hw, fun w' hw' => h.2 w' (Or.inl hw')⟩

theorem Latest.right {w : Write ι V} (h : Latest (S ∪ S') w) (hw : w ∈ S') : Latest S' w :=
  ⟨hw, fun w' hw' => h.2 w' (Or.inr hw')⟩

theorem Latest.union {w : Write ι V} (h : Latest S w) (h' : ∀ w' ∈ S', w'.stamp ≤ w.stamp) :
    Latest (S ∪ S') w :=
  ⟨Or.inl h.1, fun w' hw' => hw'.elim (h.2 w') (h' w')⟩

theorem exists_latest (hfin : S.Finite) (hS : S.Nonempty) : ∃ w, Latest S w := by
  obtain ⟨w, hw⟩ := hfin.exists_maximalFor Write.stamp S hS
  refine ⟨w, hw.prop, fun w' hw' => ?_⟩
  rcases le_total w'.stamp w.stamp with h | h
  · exact h
  · exact hw.le_of_le hw' h

/-! ## Registers and the writes they show -/

variable [OrderBot ι]

/-- A register that shows a set of writes, with the stamp of the greatest of them if that one
stores a value, and with the least stamp otherwise. -/
structure Settled (S : Set (Write ι V)) (r : Register ι V) : Prop where
  /-- A register without a value shows no write, or a removal. -/
  empty : r.value = none → r.stamp = ⊥ ∧ ∀ w, Latest S w → w.outcome = none
  /-- A register with a value has it from the greatest write. -/
  full : r.value ≠ none → ⊥ < r.stamp ∧
    ∃ w, Latest S w ∧ w.stamp = r.stamp ∧ ∀ w', Latest S w' → w'.outcome = r.value

theorem Settled.shows {r : Register ι V} (h : Settled S r) : Shows S r.value := by
  constructor
  · rintro rfl
    by_contra hne
    obtain ⟨_, w, hw, _⟩ := h.full hne
    exact hw.1
  · intro w hw
    by_cases hnone : r.value = none
    · rw [hnone, (h.empty hnone).2 w hw]
    · obtain ⟨_, _, _, _, hall⟩ := h.full hnone
      exact (hall w hw).symm

theorem settled_empty : Settled (∅ : Set (Write ι V)) ⟨none, ⊥⟩ :=
  ⟨fun _ => ⟨rfl, fun _ hw => absurd hw.1 (Set.notMem_empty _)⟩, fun h => absurd rfl h⟩

theorem settled_singleton {stamp : ι} (v : V) (h : ⊥ < stamp) :
    Settled {⟨stamp, some v⟩} (⟨some v, stamp⟩ : Register ι V) := by
  refine ⟨fun hv => absurd hv (Option.some_ne_none v), fun _ => ⟨h, ⟨stamp, some v⟩, ?_, rfl, ?_⟩⟩
  · exact ⟨rfl, fun w hw => le_of_eq (congrArg Write.stamp hw)⟩
  · exact fun w hw => congrArg Write.outcome hw.1

/-- The left register of a merge is kept: what the other side has written is not greater. -/
private theorem Settled.merge_left {r m : Register ι V} (hr : Settled S r) (hm : Settled S' m)
    (hfin : S'.Finite) (hagree : ∀ w w', Latest S w → Latest S' w' → Agree w w')
    (hle : m.stamp ≤ r.stamp) : Settled (S ∪ S') r := by
  constructor
  · intro hnone
    obtain ⟨hbot, hempty⟩ := hr.empty hnone
    have hmnone : m.value = none := by
      by_contra hne
      exact absurd (hle.trans_eq hbot) (hm.full hne).1.not_ge
    refine ⟨hbot, fun w hw => ?_⟩
    rcases hw.1 with hmem | hmem
    · exact hempty w (hw.left hmem)
    · exact (hm.empty hmnone).2 w (hw.right hmem)
  · intro hne
    obtain ⟨hpos, w, hw, hstamp, hall⟩ := hr.full hne
    have hother : ∀ w' ∈ S', w'.stamp ≤ w.stamp := by
      intro w' hw'
      obtain ⟨x, hx⟩ := exists_latest hfin ⟨w', hw'⟩
      refine (hx.2 w' hw').trans ?_
      by_cases hmnone : m.value = none
      · -- the other side has removed the value, and agrees
        have hxnone : x.outcome = none := (hm.empty hmnone).2 x hx
        have hwne : w.outcome ≠ none := by
          rw [hall w hw]
          exact hne
        rcases hagree w x hw hx with h | h | h
        · exact absurd (h.trans hxnone) hwne
        · exact absurd hxnone h.2
        · exact h.1.le
      · obtain ⟨_, y, hy, hystamp, _⟩ := hm.full hmnone
        rw [hx.stamp_eq hy, hystamp, hstamp]
        exact hle
    have hlatest : Latest (S ∪ S') w := hw.union hother
    refine ⟨hpos, w, hlatest, hstamp, fun w' hw' => ?_⟩
    rcases hw'.1 with hmem | hmem
    · exact hall w' (hw'.left hmem)
    · have hsame : w.stamp = w'.stamp := hlatest.stamp_eq hw'
      rcases hagree w w' hw (hw'.right hmem) with h | h | h
      · exact h.symm.trans (hall w hw)
      · exact absurd hsame h.1.ne
      · exact absurd hsame.symm h.1.ne

theorem Settled.merge {r m : Register ι V} (hr : Settled S r) (hm : Settled S' m)
    (hS : S.Finite) (hS' : S'.Finite)
    (hagree : ∀ w w', Latest S w → Latest S' w' → Agree w w') :
    Settled (S ∪ S') (r.merge m) := by
  rcases lt_or_ge r.stamp m.stamp with hlt | hle
  · rw [Register.merge_of_lt hlt, Set.union_comm]
    exact hm.merge_left hr hS (fun w w' hw hw' => (hagree w' w hw' hw).symm) hlt.le
  · rw [Register.merge_of_le hle]
    exact hr.merge_left hm hS' hagree hle

theorem Settled.merge_value_ne_none {r m : Register ι V} (hr : Settled S r) (hm : Settled S' m)
    (h : r.value ≠ none ∨ m.value ≠ none) : (r.merge m).value ≠ none := by
  rcases lt_or_ge r.stamp m.stamp with hlt | hle
  · rw [Register.merge_of_lt hlt]
    intro hnone
    rw [(hm.empty hnone).1] at hlt
    exact absurd hlt not_lt_bot
  · rw [Register.merge_of_le hle]
    intro hnone
    rcases h with h | h
    · exact h hnone
    · rw [(hr.empty hnone).1] at hle
      exact absurd (hm.full h).1 hle.not_gt

/-- Of two greatest writes that are shown together, the smaller one agrees with the greater, if what
is shown is a value wherever the register of the smaller has one. -/
private theorem Settled.agree_of_shows {r : Register ι V} (hr : Settled S r) {value : Option V}
    (h : Shows (S ∪ S') value) (hkeep : r.value ≠ none → value ≠ none) {w w' : Write ι V}
    (hw : Latest S w) (hw' : Latest S' w') (hle : w.stamp ≤ w'.stamp) : Agree w w' := by
  have hlatest : Latest (S ∪ S') w' := by
    rw [Set.union_comm]
    exact hw'.union fun x hx => (hw.2 x hx).trans hle
  have hvalue : value = w'.outcome := h.2 w' hlatest
  rcases hle.lt_or_eq with hlt | heq
  · by_cases hnone : w'.outcome = none
    · -- a removal is shown, so the register of the other write has no value
      refine Or.inl ?_
      rw [hnone] at hvalue
      have hrnone : r.value = none := by
        by_contra hne
        exact hkeep hne hvalue
      rw [(hr.empty hrnone).2 w hw, hnone]
    · exact Or.inr (Or.inl ⟨hlt, hnone⟩)
  · have hlatest' : Latest (S ∪ S') w := hw.union fun x hx => (hw'.2 x hx).trans_eq heq.symm
    exact Or.inl ((h.2 w hlatest').symm.trans hvalue)

theorem Settled.shows_merge_iff {r m : Register ι V} (hr : Settled S r) (hm : Settled S' m)
    (hS : S.Finite) (hS' : S'.Finite) :
    Shows (S ∪ S') (r.merge m).value ↔ ∀ w w', Latest S w → Latest S' w' → Agree w w' := by
  refine ⟨fun h w w' hw hw' => ?_, fun h => (hr.merge hm hS hS' h).shows⟩
  rcases le_total w.stamp w'.stamp with hle | hle
  · exact hr.agree_of_shows h (fun hne => hr.merge_value_ne_none hm (Or.inl hne)) hw hw' hle
  · rw [Set.union_comm] at h
    exact (hm.agree_of_shows h (fun hne => hr.merge_value_ne_none hm (Or.inr hne)) hw' hw hle).symm

/-! ## One write -/

/-- Write to a register: a value with its stamp is merged in, a removal empties the register. -/
def Register.apply (r : Register ι V) (w : Write ι V) : Register ι V :=
  match w.outcome with
  | some v => r.merge ⟨some v, w.stamp⟩
  | none => ⟨none, ⊥⟩

/-- The condition under which a write is shown.  A value has more than the least stamp, unless a
write with more is there, and agrees with the greatest write; a removal has a greater stamp than
the value it removes. -/
def Accepts (S : Set (Write ι V)) (w : Write ι V) : Prop :=
  match w.outcome with
  | some _ => (w.stamp = ⊥ → ∃ w' ∈ S, ⊥ < w'.stamp) ∧
      (⊥ < w.stamp → ∀ w', Latest S w' → Agree w' w)
  | none => ∀ w', Latest S w' → w'.outcome = none ∨ w'.stamp < w.stamp

theorem Settled.congr {r : Register ι V} (hr : Settled S r) (h : ∀ w, Latest S' w ↔ Latest S w) :
    Settled S' r := by
  constructor
  · exact fun hnone => ⟨(hr.empty hnone).1, fun w hw => (hr.empty hnone).2 w ((h w).mp hw)⟩
  · intro hne
    obtain ⟨hpos, w, hw, hstamp, hall⟩ := hr.full hne
    exact ⟨hpos, w, (h w).mpr hw, hstamp, fun w' hw' => hall w' ((h w').mp hw')⟩

theorem latest_insert_of_least {w : Write ι V} (hw : w.stamp = ⊥)
    (h : ∃ w' ∈ S, ⊥ < w'.stamp) (x : Write ι V) : Latest (insert w S) x ↔ Latest S x := by
  constructor
  · rintro ⟨hx | hx, hmax⟩
    · obtain ⟨w', hw', hpos⟩ := h
      have hle := hmax w' (Or.inr hw')
      rw [hx, hw] at hle
      exact absurd hpos hle.not_gt
    · exact ⟨hx, fun w' hw' => hmax w' (Or.inr hw')⟩
  · rintro ⟨hx, hmax⟩
    refine ⟨Or.inr hx, fun w' hw' => ?_⟩
    rcases hw' with rfl | hw'
    · rw [hw]
      exact bot_le
    · exact hmax w' hw'

theorem Settled.apply {r : Register ι V} (hr : Settled S r) (hS : S.Finite) {w : Write ι V}
    (h : Accepts S w) : Settled (insert w S) (r.apply w) := by
  obtain ⟨stamp, outcome⟩ := w
  cases outcome with
  | some v =>
    change Settled _ (r.merge ⟨some v, stamp⟩)
    rcases eq_bot_or_bot_lt stamp with hbot | hpos
    · rw [Register.merge_of_le (b := ⟨some v, stamp⟩) (hbot.trans_le bot_le)]
      exact hr.congr (latest_insert_of_least hbot (h.1 hbot))
    · rw [← Set.union_singleton]
      refine hr.merge (settled_singleton v hpos) hS (Set.finite_singleton _) ?_
      rintro w _ hw ⟨rfl, _⟩
      exact h.2 hpos w hw
  | none =>
    change Settled _ (⟨none, ⊥⟩ : Register ι V)
    refine ⟨fun _ => ⟨rfl, fun x hx => ?_⟩, fun hne => absurd rfl hne⟩
    rcases hx.1 with rfl | hmem
    · rfl
    · rcases h x ⟨hmem, fun w' hw' => hx.2 w' (Or.inr hw')⟩ with hnone | hlt
      · exact hnone
      · exact absurd hlt (hx.2 _ (Or.inl rfl)).not_gt

theorem Settled.shows_apply_iff {r : Register ι V} (hr : Settled S r) (hS : S.Finite)
    (w : Write ι V) : Shows (insert w S) (r.apply w).value ↔ Accepts S w := by
  refine ⟨fun h => ?_, fun h => (hr.apply hS h).shows⟩
  obtain ⟨stamp, outcome⟩ := w
  cases outcome with
  | some v =>
    change Shows _ (r.merge ⟨some v, stamp⟩).value at h
    constructor
    · intro hbot
      change stamp = ⊥ at hbot
      by_contra hnone
      have hall : ∀ w' ∈ S, w'.stamp ≤ ⊥ := fun w' hw' =>
        not_lt.mp fun hlt => hnone ⟨w', hw', hlt⟩
      -- the write is the greatest one, but the register does not take it
      rw [Register.merge_of_le (b := ⟨some v, stamp⟩) (hbot.trans_le bot_le)] at h
      have hvalue := h.2 ⟨stamp, some v⟩ ⟨Or.inl rfl, by
        rintro w' (rfl | hw')
        · exact le_rfl
        · exact (hall w' hw').trans bot_le⟩
      obtain ⟨hpos, x, hx, hstamp, _⟩ := hr.full (hvalue ▸ Option.some_ne_none v)
      rw [← hstamp] at hpos
      exact absurd hpos (hall x hx.1).not_gt
    · intro hpos w' hw'
      rw [← Set.union_singleton] at h
      refine (hr.shows_merge_iff (settled_singleton v hpos) hS (Set.finite_singleton _)).mp h
        w' _ hw' ⟨rfl, fun x hx => ?_⟩
      exact le_of_eq (congrArg Write.stamp hx)
  | none =>
    intro w' hw'
    by_cases hlt : w'.stamp < stamp
    · exact Or.inr hlt
    · refine Or.inl ((h.2 w' ⟨Or.inr hw'.1, ?_⟩).symm)
      rintro x (rfl | hx)
      · exact not_lt.mp hlt
      · exact hw'.2 x hx

/-! ## Replicated families of registers -/

section Replicated

variable {K σ U N : Type*} {D : ReplicatedType σ U} {cell : σ → K → Register ι V}
  {writeOf : K → U → Option (Write ι V)}

/-- The state has a register under each key, and an update is at most one write to each. -/
structure Cells (D : ReplicatedType σ U) (cell : σ → K → Register ι V)
    (writeOf : K → U → Option (Write ι V)) : Prop where
  new : ∀ k, cell D.new k = ⟨none, ⊥⟩
  /-- An update writes to the registers that it has a write for. -/
  update : ∀ s u k, cell (D.update s u) k = ((writeOf k u).map (cell s k).apply).getD (cell s k)
  merge : ∀ a b k, cell (D.merge a b) k = (cell a k).merge (cell b k)

/-- The writes to a register that have been received. -/
def received (writeOf : K → U → Option (Write ι V)) (log : List (UpdateEvent σ U))
    (r : Finset ℕ) (k : K) : Set (Write ι V) :=
  {w | ∃ i ∈ r, ∃ e, log[i]? = some e ∧ writeOf k e.update = some w}

/-- Every register of a copy shows the writes that have been received. -/
def ShowsReceived (cell : σ → K → Register ι V) (writeOf : K → U → Option (Write ι V))
    (log : List (UpdateEvent σ U)) (c : Copy σ) : Prop :=
  ∀ k, Shows (received writeOf log c.received k) (cell c.state k).value

/-- Every register accepts what an update writes to it. -/
def AcceptsUpdate (writeOf : K → U → Option (Write ι V)) (log : List (UpdateEvent σ U))
    (c : Copy σ) (u : U) : Prop :=
  ∀ k w, writeOf k u = some w → Accepts (received writeOf log c.received k) w

/-- The greatest writes of the two sides of a merge agree. -/
def SidesAgree (writeOf : K → U → Option (Write ι V)) (log : List (UpdateEvent σ U))
    (c m : Copy σ) : Prop :=
  ∀ k w w', Latest (received writeOf log c.received k) w →
    Latest (received writeOf log m.received k) w' → Agree w w'

omit [LinearOrder ι] [OrderBot ι] in
theorem mem_received {log : List (UpdateEvent σ U)} {r : Finset ℕ} {k : K} {w : Write ι V} :
    w ∈ received writeOf log r k ↔
      ∃ i ∈ r, (log.map fun e => writeOf k e.update)[i]? = some (some w) := by
  refine exists_congr fun i => and_congr_right fun _ => ?_
  rw [List.getElem?_map, Option.map_eq_some_iff]

omit [LinearOrder ι] [OrderBot ι] in
theorem received_finite (log : List (UpdateEvent σ U)) (r : Finset ℕ) (k : K) :
    (received writeOf log r k).Finite := by
  have hsub : received writeOf log r k ⊆
      ⋃ i ∈ r, {w | ∃ e, log[i]? = some e ∧ writeOf k e.update = some w} := by
    rintro w ⟨i, hi, h⟩
    exact Set.mem_biUnion hi h
  refine Set.Finite.subset (Set.Finite.biUnion r.finite_toSet fun i _ => ?_) hsub
  refine Set.Subsingleton.finite ?_
  rintro w ⟨e, he, hw⟩ w' ⟨e', he', hw'⟩
  rw [he] at he'
  obtain rfl := Option.some.inj he'
  rw [hw] at hw'
  exact Option.some.inj hw'

omit [LinearOrder ι] [OrderBot ι] in
theorem received_union (log : List (UpdateEvent σ U)) (r r' : Finset ℕ) (k : K) :
    received writeOf log (r ∪ r') k = received writeOf log r k ∪ received writeOf log r' k := by
  ext w
  constructor
  · rintro ⟨i, hi, h⟩
    rcases Finset.mem_union.mp hi with hi | hi
    · exact Or.inl ⟨i, hi, h⟩
    · exact Or.inr ⟨i, hi, h⟩
  · rintro (⟨i, hi, h⟩ | ⟨i, hi, h⟩)
    · exact ⟨i, Finset.mem_union_left _ hi, h⟩
    · exact ⟨i, Finset.mem_union_right _ hi, h⟩

omit [LinearOrder ι] [OrderBot ι] in
theorem received_append {log : List (UpdateEvent σ U)} {c : Copy σ} (h : Replicas.Within log c)
    (e : UpdateEvent σ U) (k : K) :
    received writeOf (log ++ [e]) c.received k = received writeOf log c.received k := by
  ext w
  refine exists_congr fun i => and_congr_right fun hi => ?_
  rw [h.getElem?_append e hi]

omit [LinearOrder ι] [OrderBot ι] in
theorem received_insert {log : List (UpdateEvent σ U)} {c : Copy σ} (h : Replicas.Within log c)
    (u : U) (k : K) :
    received writeOf (log ++ [⟨c, u⟩]) (insert log.length c.received) k =
      {w | writeOf k u = some w} ∪ received writeOf log c.received k := by
  rw [← received_append h ⟨c, u⟩, Finset.insert_eq, received_union]
  congr 1
  ext w
  constructor
  · rintro ⟨i, hi, e, he, hw⟩
    rw [Finset.mem_singleton.mp hi, List.getElem?_concat_length] at he
    obtain rfl := Option.some.inj he
    exact hw
  · exact fun hw => ⟨log.length, Finset.mem_singleton_self _, ⟨c, u⟩,
      List.getElem?_concat_length, hw⟩

/-- What an update leaves in a register shows if and only if the register accepts it. -/
theorem Cells.shows_update_iff (hD : Cells D cell writeOf) {log : List (UpdateEvent σ U)}
    {c : Copy σ} (hwithin : Replicas.Within log c)
    (hc : ∀ k, Settled (received writeOf log c.received k) (cell c.state k)) (u : U) :
    ShowsReceived cell writeOf (log ++ [⟨c, u⟩]) (D.updateCopy log.length c u) ↔
      AcceptsUpdate writeOf log c u := by
  refine forall_congr' fun k => ?_
  change Shows (received writeOf (log ++ [⟨c, u⟩]) (insert log.length c.received) k)
    (cell (D.update c.state u) k).value ↔ _
  rw [received_insert hwithin, hD.update]
  cases hw : writeOf k u with
  | none =>
    have hnone : {w | (none : Option (Write ι V)) = some w} = ∅ :=
      Set.eq_empty_of_forall_notMem fun w hw => nomatch hw
    rw [hnone, Set.empty_union]
    exact iff_of_true (hc k).shows fun w hw => nomatch hw
  | some w =>
    have hone : {w' | some w = some w'} = {w} :=
      Set.ext fun w' => ⟨fun h => (Option.some.inj h).symm, fun h => congrArg some h.symm⟩
    rw [hone, Set.singleton_union, Option.map_some, Option.getD_some,
      (hc k).shows_apply_iff (received_finite log c.received k) w]
    exact ⟨fun h w' hw' => Option.some.inj hw' ▸ h, fun h => h w rfl⟩

theorem Cells.settled_update (hD : Cells D cell writeOf) {log : List (UpdateEvent σ U)}
    {c : Copy σ} (hwithin : Replicas.Within log c)
    (hc : ∀ k, Settled (received writeOf log c.received k) (cell c.state k)) {u : U}
    (h : AcceptsUpdate writeOf log c u) (k : K) :
    Settled (received writeOf (log ++ [⟨c, u⟩]) (insert log.length c.received) k)
      (cell (D.update c.state u) k) := by
  rw [received_insert hwithin, hD.update]
  cases hw : writeOf k u with
  | none =>
    have hnone : {w | (none : Option (Write ι V)) = some w} = ∅ :=
      Set.eq_empty_of_forall_notMem fun w hw => nomatch hw
    rw [hnone, Set.empty_union]
    exact hc k
  | some w =>
    have hone : {w' | some w = some w'} = {w} :=
      Set.ext fun w' => ⟨fun h => (Option.some.inj h).symm, fun h => congrArg some h.symm⟩
    rw [hone, Set.singleton_union]
    exact (hc k).apply (received_finite log c.received k) (h k w hw)

theorem Cells.shows_merge_iff (hD : Cells D cell writeOf) {log : List (UpdateEvent σ U)}
    {c m : Copy σ} (hc : ∀ k, Settled (received writeOf log c.received k) (cell c.state k))
    (hm : ∀ k, Settled (received writeOf log m.received k) (cell m.state k)) :
    ShowsReceived cell writeOf log (D.mergeCopy c m) ↔ SidesAgree writeOf log c m := by
  refine forall_congr' fun k => ?_
  change Shows (received writeOf log (c.received ∪ m.received) k)
    (cell (D.merge c.state m.state) k).value ↔ _
  rw [received_union, hD.merge]
  exact (hc k).shows_merge_iff (hm k) (received_finite _ _ k) (received_finite _ _ k)

/-- In a run whose updates are accepted and whose merges are of sides that agree, every register of
every copy is settled. -/
theorem Cells.settled [DecidableEq N] (hD : Cells D cell writeOf) {w : Replicas N σ U}
    (h : D.replicas.Reach (Replicas.Meets (AcceptsUpdate writeOf) (SidesAgree writeOf)) w) :
    ∀ c, w.Has c → Replicas.Within w.log c ∧
      ∀ k, Settled (received writeOf w.log c.received k) (cell c.state k) := by
  refine (Replicas.copies_invariant
    (P := fun log c => ∀ k, Settled (received writeOf log c.received k) (cell c.state k))
    ?_ ?_ ?_ ?_ h).2
  · intro k
    have hnone : received writeOf ([] : List (UpdateEvent σ U)) ∅ k = ∅ :=
      Set.eq_empty_of_forall_notMem fun w ⟨i, hi, _⟩ => Finset.notMem_empty i hi
    change Settled (received writeOf [] ∅ k) (cell D.new k)
    rw [hnone, hD.new]
    exact settled_empty
  · intro log c e hwithin hc k
    rw [received_append hwithin]
    exact hc k
  · exact fun log c u _ hwithin hc haccepts => hD.settled_update hwithin hc haccepts
  · intro log c m _ _ hc hm hagree k
    change Settled (received writeOf log (c.received ∪ m.received) k)
      (cell (D.merge c.state m.state) k)
    rw [received_union, hD.merge]
    exact (hc k).merge (hm k) (received_finite _ _ k) (received_finite _ _ k) (hagree k)

/-- In such a run every replica shows what it has received, and a further step keeps this if and
only if it meets the conditions. -/
theorem Cells.shows_iff [DecidableEq N] (hD : Cells D cell writeOf) {w : Replicas N σ U}
    (h : D.replicas.Reach (Replicas.Meets (AcceptsUpdate writeOf) (SidesAgree writeOf)) w) :
    (∀ r, ShowsReceived cell writeOf w.log (w.replica r)) ∧
      ∀ a w', D.replicas.step w a = some w' →
        ((∀ r, ShowsReceived cell writeOf w'.log (w'.replica r)) ↔
          Replicas.Meets (AcceptsUpdate writeOf) (SidesAgree writeOf) w a) := by
  have hall (c : Copy σ) (hc : w.Has c) := hD.settled h c hc
  have hreplica (r : N) := hall (w.replica r) (Or.inl ⟨r, rfl⟩)
  have hshows (r : N) : ShowsReceived cell writeOf w.log (w.replica r) :=
    fun k => ((hreplica r).2 k).shows
  refine ⟨hshows, fun a w' hstep => ?_⟩
  have hgrow (r : N) (e : UpdateEvent σ U) (hr : ShowsReceived cell writeOf w.log (w.replica r)) :
      ShowsReceived cell writeOf (w.log ++ [e]) (w.replica r) := by
    intro k
    rw [received_append (hreplica r).1]
    exact hr k
  refine (Replicas.forall_step_iff hgrow hshows hstep).trans ?_
  refine Replicas.meets_congr (fun r u => ?_) (fun r m hm => ?_) a
  · exact hD.shows_update_iff (hreplica r).1 (hreplica r).2 u
  · exact hD.shows_merge_iff (hreplica r).2 (hall m (Or.inr hm)).2

omit [OrderBot ι] in
theorem ShowsReceived.value_eq {log : List (UpdateEvent σ U)} {c c' : Copy σ}
    (h : ShowsReceived cell writeOf log c) (h' : ShowsReceived cell writeOf log c')
    (hsame : c.received = c'.received) (k : K) :
    (cell c.state k).value = (cell c'.state k).value := by
  have hk := h k
  have hk' := h' k
  rw [← hsame] at hk'
  rcases Set.eq_empty_or_nonempty (received writeOf log c.received k) with hempty | hne
  · rw [hk.1 hempty, hk'.1 hempty]
  · obtain ⟨w, hw⟩ := exists_latest (received_finite log c.received k) hne
    rw [hk.2 w hw, hk'.2 w hw]

end Replicated

end LastWrite

end AegisDB
