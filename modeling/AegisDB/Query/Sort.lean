import AegisDB.Library.Kinds
import AegisDB.Query.Join
import AegisDB.Query.Plan

/-!
# ORDER BY

The sort operator reads all rows of its input, sorts them by the values of its keys, and hands them
out in batches of 1024.  Values of different kinds, values without an order and anything next to
NULL count as equal, and the place that a key has for NULLs is not looked at.  So the values of a
key are in order if they are of one kind or all tie, as long as no two integers tie with one number;
and NULLs are where they should be only if the rows stand right anyhow.
-/

namespace AegisDB

namespace Query

open Prepared (SortKey)

/-! ## The operator -/

/-- An item of ORDER BY. -/
structure OrderByItem where
  expr : PlanExpression
  ascending : Bool
  nullsFirst : Option Bool

/-- The sort key of an item: if nothing else is said, NULLs are the greatest. -/
def OrderByItem.sortKey (item : OrderByItem) : SortKey PlanExpression where
  expr := item.expr
  ascending := item.ascending
  nullsFirst := item.nullsFirst.getD !item.ascending

/-- The value of a key in a row; where there is none, NULL. -/
def keyValue (columns : List String) (key : SortKey PlanExpression) (row : Row) : Value :=
  match evaluateExpression row columns key.expr with
  | .ok value => value
  | .error _ => .null

/-- How the operator compares two rows. -/
def compareRows (columns : List String) : List (SortKey PlanExpression) → Row → Row → Ordering
  | [], _, _ => .eq
  | key :: keys, a, b =>
    let cmp := compareValues (keyValue columns key a) (keyValue columns key b)
    if cmp ≠ .eq then if key.ascending then cmp else cmp.swap
    else compareRows columns keys a b

/-- A sort: what does not change while it runs. -/
structure SortOperator where
  orderBy : List (SortKey PlanExpression)
  columns : List String

/-- What a sort keeps from one batch to the next. -/
structure SortCursor where
  input : List (List Row)
  sortedData : Option (List Row)
  position : ℕ

namespace SortOperator

def new (input : Source) (orderBy : List (SortKey PlanExpression)) : SortOperator × SortCursor :=
  ({ orderBy, columns := input.columns },
    { input := input.batches, sortedData := none, position := 0 })

variable (sort : StableSort Row) (op : SortOperator)

/-- The rows in order, which are sorted when the first batch is asked for. -/
def sorted (c : SortCursor) : Option (List Row × SortCursor) :=
  match c.sortedData with
  | some data => some (data, c)
  | none => do
    let data ← sort.sortBy (compareRows op.columns op.orderBy) c.input.flatten
    return (data, { c with input := [], sortedData := some data })

/-- The next batch of the sort; `none` is a panic. -/
def nextBatch (c : SortCursor) : Option (Option (List Row) × SortCursor) := do
  let (data, c) ← op.sorted sort c
  if data.length ≤ c.position then return (none, c)
  else
    let stop := min (c.position + batchLimit) data.length
    return (some ((data.take stop).drop c.position), { c with position := stop })

/-- Asked for batches until none is left, the sort hands out these rows. -/
inductive HandsOut : SortCursor → List Row → Prop where
  | done {c c' : SortCursor} : op.nextBatch sort c = some (none, c') → HandsOut c []
  | batch {c c' : SortCursor} {rows rows' : List Row} :
      op.nextBatch sort c = some (some rows, c') → HandsOut c' rows' → HandsOut c (rows ++ rows')

end SortOperator

/-! ## What is asked for -/

/-- How two values of a key should stand to each other. -/
def referenceCompare (item : OrderByItem) (v w : Value) : Ordering :=
  let nullsFirst := item.nullsFirst.getD !item.ascending
  match v, w with
  | .null, .null => .eq
  | .null, _ => if nullsFirst then .lt else .gt
  | _, .null => if nullsFirst then .gt else .lt
  | v, w => if item.ascending then compareValues v w else (compareValues v w).swap

/-- How two rows should stand to each other. -/
def referenceCompareRows (columns : List String) : List OrderByItem → Row → Row → Ordering
  | [], _, _ => .eq
  | item :: items, a, b =>
    (referenceCompare item (keyValue columns item.sortKey a)
      (keyValue columns item.sortKey b)).then (referenceCompareRows columns items a b)

def keyValues (source : Source) (item : OrderByItem) : List Value :=
  source.rows.map (keyValue source.columns item.sortKey)

/-- The comparison is a total preorder on the values of each key, and whatever sort is used, the
rows of the input are handed out, ordered by the keys and with NULLs where the items want them. -/
def SortsAsAsked (items : List OrderByItem) (source : Source) : Prop :=
  (∀ item ∈ items, Preorders compareValues (keyValues source item)) ∧
    ∀ sort : StableSort Row, ∃ rows,
      (SortOperator.new source (items.map OrderByItem.sortKey)).1.HandsOut sort
        (SortOperator.new source (items.map OrderByItem.sortKey)).2 rows ∧
      rows.Perm source.rows ∧
      rows.Pairwise fun a b => (referenceCompareRows source.columns items a b).isLE = true

/-! ## When the values are in order -/

/-- The kinds of values that have an order. -/
inductive Kind where
  | number | string | boolean
deriving DecidableEq

/-- The kind of a value, if it has an order; what is not a number has none. -/
def Value.kind : Value → Option Kind
  | .integer _ => some .number
  | .float f => if f.isNaN then none else some .number
  | .string _ => some .string
  | .boolean _ => some .boolean
  | _ => none

/-- If two values are not alike, all are of one kind; and no number ties with two integers. -/
structure Coherent (values : List Value) : Prop where
  kinds : ∀ a ∈ values, ∀ b ∈ values, compareValues a b = .gt → ∀ c ∈ values, c.kind = a.kind
  rounding : ∀ i j f, Value.integer i ∈ values → Value.integer j ∈ values → Value.float f ∈ values →
    i < j → ¬(compareValues (.integer i) (.float f) = .eq ∧
      compareValues (.integer j) (.float f) = .eq)

/-- The rows that the operator leaves in their order, and those that it turns round, then stand as
they should. -/
def NullsInPlace (items : List OrderByItem) (source : Source) : Prop :=
  source.rows.Pairwise fun a b =>
    if (compareRows source.columns (items.map OrderByItem.sortKey) a b).isLE = true then
      (referenceCompareRows source.columns items a b).isLE = true
    else (referenceCompareRows source.columns items b a).isLE = true

/-! ## The comparison of values -/

/-- Two values that are turned round compare the other way. -/
theorem compareValues_swap (v w : Value) : compareValues v w = (compareValues w v).swap := by
  cases v with
  | integer i =>
    cases w with
    | integer j => exact compare_swap i j
    | float f => exact getD_partialCmp_swap _ _
    | _ => rfl
  | float f =>
    cases w with
    | integer j => exact getD_partialCmp_swap _ _
    | float g => exact getD_partialCmp_swap _ _
    | _ => rfl
  | string s =>
    cases w with
    | string t => exact compare_swap s t
    | _ => rfl
  | boolean a =>
    cases w with
    | boolean b => exact compare_swap a b
    | _ => rfl
  | _ => cases w <;> rfl

namespace Value

theorem kind_eq_string {v : Value} (h : v.kind = some .string) : ∃ s, v = .string s := by
  cases v with
  | string s => exact ⟨s, rfl⟩
  | float f =>
    rw [kind] at h
    split_ifs at h
    cases h
  | _ => cases h

theorem kind_eq_boolean {v : Value} (h : v.kind = some .boolean) : ∃ b, v = .boolean b := by
  cases v with
  | boolean b => exact ⟨b, rfl⟩
  | float f =>
    rw [kind] at h
    split_ifs at h
    cases h
  | _ => cases h

theorem kind_eq_number {v : Value} (h : v.kind = some .number) :
    (∃ i, v = .integer i) ∨ ∃ f, v = .float f ∧ f.isNaN = false := by
  cases v with
  | integer i => exact Or.inl ⟨i, rfl⟩
  | float f =>
    rw [kind] at h
    split_ifs at h with hnan
    exact Or.inr ⟨f, rfl, Bool.eq_false_iff.mpr hnan⟩
  | _ => cases h

theorem mixed_of_kind {v : Value} (h : v.kind = some .number) :
    ∃ n : MixedNumber, n.asF64.isNaN = false ∧
      ((∃ i, v = .integer i ∧ n = .inl i) ∨ ∃ f, v = .float f ∧ n = .inr f) := by
  rcases kind_eq_number h with ⟨i, rfl⟩ | ⟨f, rfl, hf⟩
  · exact ⟨.inl i, Binary64.isNaN_ofInt64 i, Or.inl ⟨i, rfl, rfl⟩⟩
  · exact ⟨.inr f, hf, Or.inr ⟨f, rfl, rfl⟩⟩

end Value

theorem kind_of_compareValues {v w : Value} (h : compareValues v w ≠ .eq) :
    v.kind = w.kind ∧ v.kind ≠ none := by
  cases v with
  | integer i =>
    cases w with
    | integer j => exact ⟨rfl, nofun⟩
    | float f =>
      rw [Value.kind, Value.kind, (isNaN_of_partialCmp h).2]
      exact ⟨rfl, nofun⟩
    | _ => exact absurd rfl h
  | float f =>
    cases w with
    | integer j =>
      rw [Value.kind, Value.kind, (isNaN_of_partialCmp h).1]
      exact ⟨rfl, nofun⟩
    | float g =>
      rw [Value.kind, Value.kind, (isNaN_of_partialCmp h).1, (isNaN_of_partialCmp h).2]
      exact ⟨rfl, nofun⟩
    | _ => exact absurd rfl h
  | string s =>
    cases w with
    | string t => exact ⟨rfl, nofun⟩
    | _ => exact absurd rfl h
  | boolean a =>
    cases w with
    | boolean b => exact ⟨rfl, nofun⟩
    | _ => exact absurd rfl h
  | _ => exact absurd (by cases w <;> rfl) h

theorem comparesWithin (values : List Value) :
    ComparesWithin compareValues Value.kind values where
  swap a _ b _ := compareValues_swap a b
  alike _ _ _ _ := kind_of_compareValues

/-- The comparison of coherent values of one kind is transitive. -/
theorem Coherent.trans {values : List Value} (h : Coherent values) (kind : Kind) {a b c : Value}
    (ha : a ∈ values) (hb : b ∈ values) (hc : c ∈ values) (hka : a.kind = some kind)
    (hkb : b.kind = some kind) (hkc : c.kind = some kind)
    (hab : (compareValues a b).isLE = true) (hbc : (compareValues b c).isLE = true) :
    (compareValues a c).isLE = true := by
  cases kind with
  | string =>
    obtain ⟨s, rfl⟩ := Value.kind_eq_string hka
    obtain ⟨t, rfl⟩ := Value.kind_eq_string hkb
    obtain ⟨u, rfl⟩ := Value.kind_eq_string hkc
    exact @Std.TransCmp.isLE_trans String compare _ s t u hab hbc
  | boolean =>
    obtain ⟨s, rfl⟩ := Value.kind_eq_boolean hka
    obtain ⟨t, rfl⟩ := Value.kind_eq_boolean hkb
    obtain ⟨u, rfl⟩ := Value.kind_eq_boolean hkc
    exact @Std.TransCmp.isLE_trans Bool compare _ s t u hab hbc
  | number =>
    obtain ⟨x, hx, hax⟩ := Value.mixed_of_kind hka
    obtain ⟨y, hy, hby⟩ := Value.mixed_of_kind hkb
    obtain ⟨z, hz, hcz⟩ := Value.mixed_of_kind hkc
    -- the values compare as the numbers do
    have hcmp : ∀ {v w : Value} {m n : MixedNumber},
        ((∃ i, v = .integer i ∧ m = .inl i) ∨ ∃ f, v = .float f ∧ m = .inr f) →
        ((∃ i, w = .integer i ∧ n = .inl i) ∨ ∃ f, w = .float f ∧ n = .inr f) →
        compareValues v w = MixedNumber.cmp m n := by
      rintro v w m n (⟨i, rfl, rfl⟩ | ⟨f, rfl, rfl⟩) (⟨j, rfl, rfl⟩ | ⟨g, rfl, rfl⟩) <;> rfl
    rw [hcmp hax hby] at hab
    rw [hcmp hby hcz] at hbc
    rw [hcmp hax hcz]
    refine MixedNumber.isLE_trans hx hy hz (fun i j f hzi hxj hyf hlt => ?_) hab hbc
    obtain rfl : c = .integer i := by
      rcases hcz with ⟨_, rfl, rfl⟩ | ⟨_, _, rfl⟩
      · rw [Sum.inl.inj hzi]
      · cases hzi
    obtain rfl : a = .integer j := by
      rcases hax with ⟨_, rfl, rfl⟩ | ⟨_, _, rfl⟩
      · rw [Sum.inl.inj hxj]
      · cases hxj
    obtain rfl : b = .float f := by
      rcases hby with ⟨_, _, rfl⟩ | ⟨_, rfl, rfl⟩
      · cases hyf
      · rw [Sum.inr.inj hyf]
    exact h.rounding i j f hc ha hb hlt

theorem preorders_iff (values : List Value) :
    Preorders compareValues values ↔ Coherent values := by
  constructor
  · intro h
    refine ⟨(comparesWithin values).oneKind h, fun i j f hi hj hf hlt => ?_⟩
    exact MixedNumber.not_tieAt h hi hj hf rfl rfl rfl hlt
  · intro h
    exact (comparesWithin values).preorders_of_oneKind h.kinds
      fun kind a ha b hb c hc hka hkb hkc => h.trans kind ha hb hc hka hkb hkc

/-! ## Runs of the operator -/

namespace SortOperator

variable {sort : StableSort Row} {op : SortOperator}

theorem HandsOut.unique {c : SortCursor} {rows rows' : List Row} (h : op.HandsOut sort c rows)
    (h' : op.HandsOut sort c rows') : rows = rows' := by
  induction h generalizing rows' with
  | done hnext =>
    cases h' with
    | done => rfl
    | batch hnext' =>
      rw [hnext] at hnext'
      cases hnext'
  | batch hnext _ ih =>
    cases h' with
    | done hnext' =>
      rw [hnext] at hnext'
      cases hnext'
    | batch hnext' hrest =>
      rw [hnext] at hnext'
      obtain ⟨hrows, rfl⟩ := Prod.mk.inj (Option.some.inj hnext')
      rw [Option.some.inj hrows, ih hrest]

theorem handsOut_drop (data : List Row) (input : List (List Row)) (position : ℕ) :
    op.HandsOut sort { input, sortedData := some data, position } (data.drop position) := by
  by_cases hend : data.length ≤ position
  · rw [List.drop_eq_nil_of_le hend]
    exact .done (if_pos hend)
  · -- one more batch
    have hnext : op.nextBatch sort { input, sortedData := some data, position } =
        some (some ((data.take (min (position + batchLimit) data.length)).drop position),
          { input, sortedData := some data
            position := min (position + batchLimit) data.length }) :=
      if_neg hend
    have hrest := handsOut_drop data input (min (position + batchLimit) data.length)
    have hle : position ≤ min (position + batchLimit) data.length := by omega
    have hsplit : data.drop position =
        (data.take (min (position + batchLimit) data.length)).drop position ++
          data.drop (min (position + batchLimit) data.length) := by
      rw [List.drop_take]
      conv_lhs => rw [← List.take_append_drop
        (min (position + batchLimit) data.length - position) (data.drop position)]
      rw [List.drop_drop, Nat.add_sub_cancel' hle]
    rw [hsplit]
    exact .batch hnext hrest
termination_by data.length - position
decreasing_by
  rw [batchLimit]
  omega

/-- The rows that are handed out are those that the sort returns. -/
theorem handsOut_new_iff (source : Source) (keys : List (SortKey PlanExpression))
    (rows : List Row) :
    (new source keys).1.HandsOut sort (new source keys).2 rows ↔
      sort.sortBy (compareRows source.columns keys) source.rows = some rows := by
  have hsorted : (new source keys).1.sorted sort (new source keys).2 =
      (sort.sortBy (compareRows source.columns keys) source.rows).map fun data =>
        (data, { input := [], sortedData := some data, position := 0 }) := by
    change (sort.sortBy (compareRows source.columns keys) source.rows).bind (fun data =>
      some (data, SortCursor.mk [] (some data) 0)) = _
    cases sort.sortBy (compareRows source.columns keys) source.rows <;> rfl
  -- the first batch is that of a cursor with the sorted rows
  have hnew : ∀ data, sort.sortBy (compareRows source.columns keys) source.rows = some data →
      (new source keys).1.HandsOut sort (new source keys).2 data := by
    intro data hdata
    have hnext : (new source keys).1.nextBatch sort (new source keys).2 =
        (new source keys).1.nextBatch sort
          { input := [], sortedData := some data, position := 0 } := by
      rw [nextBatch, hsorted, hdata]
      rfl
    have hdrop := @handsOut_drop sort (new source keys).1 data [] 0
    rw [List.drop_zero] at hdrop
    generalize hc : ({ input := [], sortedData := some data, position := 0 } : SortCursor) = c
      at hdrop hnext
    cases hdrop with
    | done h => exact .done (hnext.trans h)
    | batch h hrest => exact .batch (hnext.trans h) hrest
  constructor
  · intro h
    cases hdata : sort.sortBy (compareRows source.columns keys) source.rows with
    | some data => rw [h.unique (hnew data hdata)]
    | none =>
      have hnone : (new source keys).1.nextBatch sort (new source keys).2 = none := by
        rw [nextBatch, hsorted, hdata]
        rfl
      cases h with
      | done hnext =>
        rw [hnone] at hnext
        cases hnext
      | batch hnext =>
        rw [hnone] at hnext
        cases hnext
  · exact hnew rows

end SortOperator

/-! ## The order of rows -/

theorem compareRows_cons (columns : List String) (key : SortKey PlanExpression)
    (keys : List (SortKey PlanExpression)) (a b : Row) :
    compareRows columns (key :: keys) a b =
      (if key.ascending then compareValues (keyValue columns key a) (keyValue columns key b)
        else (compareValues (keyValue columns key a) (keyValue columns key b)).swap).then
        (compareRows columns keys a b) := by
  rw [compareRows]
  cases compareValues (keyValue columns key a) (keyValue columns key b) <;>
    cases key.ascending <;> rfl

theorem preorders_compareRows {columns : List String} {rows : List Row}
    {keys : List (SortKey PlanExpression)}
    (h : ∀ key ∈ keys, Preorders compareValues (rows.map (keyValue columns key))) :
    Preorders (compareRows columns keys) rows := by
  induction keys with
  | nil => exact Preorders.const
  | cons key keys ih =>
    obtain ⟨hkey, hkeys⟩ := List.forall_mem_cons.mp h
    have hcmp : compareRows columns (key :: keys) = fun a b =>
        (if key.ascending then compareValues (keyValue columns key a) (keyValue columns key b)
          else (compareValues (keyValue columns key a) (keyValue columns key b)).swap).then
          (compareRows columns keys a b) :=
      funext₂ (compareRows_cons columns key keys)
    rw [hcmp]
    refine Preorders.lex ?_ (ih hkeys)
    cases key.ascending with
    | true => exact hkey.on
    | false => exact hkey.on.reverse

/-- A query with ORDER BY returns what it asks for exactly if the values of each key are coherent
and the rows stand so that NULLs come to their place. -/
theorem sortsAsAsked_iff (items : List OrderByItem) (source : Source) :
    SortsAsAsked items source ↔
      (∀ item ∈ items, Coherent (keyValues source item)) ∧ NullsInPlace items source := by
  rw [SortsAsAsked, forall₂_congr fun item _ => preorders_iff (keyValues source item)]
  refine and_congr_right fun hcoherent => ?_
  have hrows : Preorders (compareRows source.columns (items.map OrderByItem.sortKey))
      source.rows := by
    refine preorders_compareRows fun key hkey => ?_
    obtain ⟨item, hitem, rfl⟩ := List.mem_map.mp hkey
    exact (preorders_iff _).mpr (hcoherent item hitem)
  simp only [SortOperator.handsOut_new_iff]
  rw [NullsInPlace, ← pairwise_mergeSort_iff hrows.orders]
  constructor
  · intro h
    obtain ⟨rows, hsort, -, hordered⟩ := h StableSort.merge
    rw [← Option.some.inj hsort] at hordered
    exact hordered
  · intro h sort
    refine ⟨_, sort.stable _ _ hrows, List.mergeSort_perm _ _, h⟩

/-- Two rows that are to be put in order with NULL in front. -/
def nullsFirstItem : OrderByItem where
  expr := .column "x"
  ascending := true
  nullsFirst := some true

def numberAndNull : Source where
  columns := ["x"]
  batches := [[[.integer 5], [.null]]]

/-- NULL ties with two numbers that do not tie, and NULLS FIRST leaves a number in front. -/
theorem not_sortsAsAsked :
    ¬ Preorders compareValues [.integer 1, .null, .integer 0] ∧
      ¬ ∀ (items : List OrderByItem) (source : Source) (sort : StableSort Row), ∃ rows,
        (SortOperator.new source (items.map OrderByItem.sortKey)).1.HandsOut sort
          (SortOperator.new source (items.map OrderByItem.sortKey)).2 rows ∧
        rows.Perm source.rows ∧
        rows.Pairwise fun a b => (referenceCompareRows source.columns items a b).isLE = true := by
  constructor
  · intro h
    have hle := @Preorders.trans Value compareValues _ h (.integer 1) .null (.integer 0)
      (by decide) (by decide) (by decide) rfl rfl
    exact absurd hle (by decide)
  · intro h
    obtain ⟨rows, hout, -, hordered⟩ := h [nullsFirstItem] numberAndNull StableSort.merge
    have hrows := (SortOperator.handsOut_new_iff _ _ _).mp hout
    rw [← Option.some.inj hrows, List.mergeSort_of_pairwise (by decide)] at hordered
    exact absurd hordered (by decide)

end Query

end AegisDB
