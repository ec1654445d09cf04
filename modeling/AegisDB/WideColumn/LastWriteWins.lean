import AegisDB.WideColumn.Engine
import Mathlib.Data.List.MinMax

/-!
# The last write wins

What a cell shows after any operations is the write with the greatest timestamp of those that were
made since the cell was last removed, and of several with that timestamp the first.  So the order of
writes does not matter if their timestamps are different and nothing is removed.  A write with a
timestamp of the clock is later than all others that have theirs from the clock, but the clock does
not know of timestamps that were supplied.
-/

namespace AegisDB.WideColumn

variable {ψ : Type}

/-! ## Histories -/

/-- What is asked of the engine. -/
inductive WideOp (ψ : Type) where
  | createTable (name : String)
  | dropTable (name : String)
  | put (table rowKey : String) (columns : Table String ψ) (timestamp : Option UInt64)
  | deleteCell (table rowKey column : String)
  | deleteRow (table rowKey : String)

/-- The engine after an operation; one that fails changes nothing. -/
def WideColumnEngine.apply (self : WideColumnEngine ψ) : WideOp ψ → WideColumnEngine ψ
  | .createTable name =>
    match self.createTable name with
    | .ok engine => engine
    | .error _ => self
  | .dropTable name =>
    match self.dropTable name with
    | .ok engine => engine
    | .error _ => self
  | .put table rowKey columns timestamp =>
    match self.put table rowKey columns timestamp with
    | .ok engine => engine
    | .error _ => self
  | .deleteCell table rowKey column =>
    match self.deleteCell table rowKey column with
    | .ok result => result.2
    | .error _ => self
  | .deleteRow table rowKey =>
    match self.deleteRow table rowKey with
    | .ok result => result.2
    | .error _ => self

/-- What an operation does to cells, with the timestamp that it was given, and whether the clock
gave it. -/
inductive Effect (ψ : Type) where
  | put (table rowKey : String) (columns : Table String ψ) (timestamp : UInt64) (automatic : Bool)
  | dropTable (table : String)
  | deleteCell (table rowKey column : String)
  | deleteRow (table rowKey : String)

/-- What an operation does at a time of the clock. -/
def WideOp.effect (clock : UInt64) : WideOp ψ → Option (Effect ψ)
  | .createTable _ => none
  | .dropTable name => some (.dropTable name)
  | .put table rowKey columns timestamp =>
    some (.put table rowKey columns (timestamp.getD clock) timestamp.isNone)
  | .deleteCell table rowKey column => some (.deleteCell table rowKey column)
  | .deleteRow table rowKey => some (.deleteRow table rowKey)

/-- A write of a cell. -/
structure Write (ψ : Type) where
  cell : Cell ψ
  automatic : Bool

namespace Effect

variable (table rowKey column : String)

/-- Whether it removes a cell. -/
def removes : Effect ψ → Bool
  | .put _ _ _ _ _ => false
  | .dropTable table' => decide (table = table')
  | .deleteCell table' rowKey' column' =>
    decide (table = table' ∧ rowKey = rowKey' ∧ column = column')
  | .deleteRow table' rowKey' => decide (table = table' ∧ rowKey = rowKey')

/-- The write of a cell, if it is one. -/
def write : Effect ψ → Option (Write ψ)
  | .put table' rowKey' columns timestamp automatic =>
    if table = table' ∧ rowKey = rowKey' then
      (columns.lookup column).map fun value => { cell := { value, timestamp }, automatic }
    else none
  | _ => none

end Effect

/-- The writes of a cell since it was last removed. -/
def live (table rowKey column : String) (history : List (Effect ψ)) : List (Write ψ) :=
  history.foldl (fun writes effect =>
    if effect.removes table rowKey column then []
    else writes ++ (effect.write table rowKey column).toList) []

/-- The engine and what was done. -/
structure WideRun (ψ : Type) where
  engine : WideColumnEngine ψ := {}
  history : List (Effect ψ) := []

def WideRun.step (w : WideRun ψ) (op : WideOp ψ) : WideRun ψ where
  engine := w.engine.apply op
  history := w.history ++ (op.effect w.engine.clock).toList

def after (ops : List (WideOp ψ)) : WideRun ψ :=
  ops.foldl WideRun.step {}

/-- The number of writes with a timestamp of the clock. -/
def automaticPuts (history : List (Effect ψ)) : ℕ :=
  history.countP fun effect =>
    match effect with
    | .put _ _ _ _ automatic => automatic
    | _ => false

def Write.time (w : Write ψ) : ℕ :=
  w.cell.timestamp.toNat

/-! ## One operation -/

/-- The later of a cell and a new one, the old one if they are equally old. -/
def laterCell (old : Option (Cell ψ)) (new : Cell ψ) : Option (Cell ψ) :=
  match old with
  | some existing => if new.timestamp ≤ existing.timestamp then some existing else some new
  | none => some new

namespace WideColumnEngine

variable {self : WideColumnEngine ψ}

theorem lookup_putCell (ts : UInt64) (row : Row ψ) (column column' : String) (value : ψ) :
    (putCell ts row column value).lookup column' =
      if column' = column then laterCell (row.lookup column) ⟨value, ts⟩
      else row.lookup column' := by
  rw [putCell]
  cases hrow : row.lookup column with
  | none => exact Table.lookup_insert row column column' _
  | some existing =>
    rw [laterCell]
    dsimp only
    by_cases hold : ts ≤ existing.timestamp
    · rw [if_pos hold, if_pos hold]
      split_ifs with heq
      · rw [heq, hrow]
      · rfl
    · rw [if_neg hold, if_neg hold]
      exact Table.lookup_insert row column column' _

theorem lookup_foldl_putCell (ts : UInt64) {entries : List (Sigma fun _ : String => ψ)}
    (hentries : entries.NodupKeys) (row : Row ψ) (column : String) :
    (entries.foldl (fun row entry => putCell ts row entry.1 entry.2) row).lookup column =
      match entries.dlookup column with
      | some value => laterCell (row.lookup column) ⟨value, ts⟩
      | none => row.lookup column := by
  induction entries generalizing row with
  | nil => rfl
  | cons entry entries ih =>
    obtain ⟨column', value⟩ := entry
    obtain ⟨hnew, hrest⟩ := List.nodupKeys_cons.mp hentries
    rw [List.foldl_cons, ih hrest, lookup_putCell]
    by_cases heq : column = column'
    · subst heq
      rw [if_pos rfl, List.dlookup_cons_eq, List.dlookup_eq_none.mpr hnew]
    · rw [if_neg heq, List.dlookup_cons_ne _ _ heq]

theorem lookup_putRow (ts : UInt64) (row : Row ψ) (columns : Table String ψ) (column : String) :
    (putRow ts row columns).lookup column =
      match columns.lookup column with
      | some value => laterCell (row.lookup column) ⟨value, ts⟩
      | none => row.lookup column :=
  lookup_foldl_putCell ts columns.nodupKeys row column

theorem cell_put {table rowKey : String} {columns : Table String ψ} {timestamp : Option UInt64}
    {engine : WideColumnEngine ψ} (h : self.put table rowKey columns timestamp = .ok engine)
    (table' rowKey' column : String) : engine.cell table' rowKey' column =
      if table' = table ∧ rowKey' = rowKey then
        match columns.lookup column with
        | some value =>
          laterCell (self.cell table' rowKey' column) ⟨value, timestamp.getD self.clock⟩
        | none => self.cell table' rowKey' column
      else self.cell table' rowKey' column := by
  rw [put] at h
  by_cases hempty : columns.entries = []
  · rw [if_pos hempty] at h
    cases h
  rw [if_neg hempty] at h
  obtain rfl := Except.ok.inj h
  rw [cell_insert]
  by_cases htable : table' = table
  · subst htable
    rw [if_pos rfl]
    dsimp only
    rw [Table.lookup_insert]
    by_cases hrow : rowKey' = rowKey
    · subst hrow
      rw [if_pos rfl, if_pos ⟨rfl, rfl⟩, Option.bind_some, lookup_putRow, ← cell_eq]
    · have hother : ¬(table' = table' ∧ rowKey' = rowKey) := fun hboth => hrow hboth.2
      rw [if_neg hrow, if_neg hother, ← cell_eq_bind]
  · have hother : ¬(table' = table ∧ rowKey' = rowKey) := fun hboth => htable hboth.1
    rw [if_neg htable, if_neg hother]
    rfl

/-- The rows behind the deletion of a cell: a row without cells is none. -/
theorem lookup_restRows {rows : Table String (Row ψ)} {rowKey column : String} {row : Row ψ}
    (rowKey' column' : String) :
    ((if (row.erase column).entries = [] then rows.erase rowKey
      else rows.insert rowKey (row.erase column)).lookup rowKey').bind
        (fun row => row.lookup column') =
      if rowKey' = rowKey then if column' = column then none else row.lookup column'
      else (rows.lookup rowKey').bind fun row => row.lookup column' := by
  rw [← Table.lookup_erase]
  by_cases hempty : (row.erase column).entries = []
  · rw [if_pos hempty, Table.lookup_erase]
    have hnone : (row.erase column).lookup column' = none := by
      rw [AList.lookup, hempty]
      rfl
    rw [hnone]
    split_ifs <;> rfl
  · rw [if_neg hempty, Table.lookup_insert]
    split_ifs <;> rfl

theorem cell_deleteCell {table rowKey column : String} {result : Bool × WideColumnEngine ψ}
    (h : self.deleteCell table rowKey column = .ok result) (table' rowKey' column' : String) :
    result.2.cell table' rowKey' column' =
      if table' = table ∧ rowKey' = rowKey ∧ column' = column then none
      else self.cell table' rowKey' column' := by
  rw [deleteCell] at h
  cases ht : self.tables.lookup table with
  | none =>
    rw [ht] at h
    cases h
  | some t =>
    rw [ht] at h
    dsimp only at h
    cases hr : t.rows.lookup rowKey with
    | none =>
      rw [hr] at h
      obtain rfl := Except.ok.inj h
      split_ifs with hsame
      · obtain ⟨rfl, rfl, rfl⟩ := hsame
        rw [cell, ht, Option.bind_some, hr]
        rfl
      · rfl
    | some row =>
      rw [hr] at h
      obtain rfl := Except.ok.inj h
      rw [cell_insert]
      by_cases htable : table' = table
      · subst htable
        rw [if_pos rfl, lookup_restRows, cell, ht, Option.bind_some]
        by_cases hrow : rowKey' = rowKey
        · subst hrow
          rw [if_pos rfl, hr, Option.bind_some]
          refine if_congr ?_ rfl rfl
          rw [eq_self, eq_self, true_and, true_and]
        · rw [if_neg hrow, if_neg fun hall => hrow hall.2.1]
      · rw [if_neg htable, if_neg fun hall => htable hall.1]

theorem cell_deleteRow {table rowKey : String} {result : Bool × WideColumnEngine ψ}
    (h : self.deleteRow table rowKey = .ok result) (table' rowKey' column : String) :
    result.2.cell table' rowKey' column =
      if table' = table ∧ rowKey' = rowKey then none
      else self.cell table' rowKey' column := by
  rw [deleteRow] at h
  cases ht : self.tables.lookup table with
  | none =>
    rw [ht] at h
    cases h
  | some t =>
    rw [ht] at h
    obtain rfl := Except.ok.inj h
    rw [cell_insert]
    by_cases htable : table' = table
    · subst htable
      rw [if_pos rfl, cell, ht, Option.bind_some]
      dsimp only
      rw [Table.lookup_erase]
      by_cases hrow : rowKey' = rowKey
      · rw [if_pos hrow, if_pos ⟨rfl, hrow⟩]
        rfl
      · rw [if_neg hrow, if_neg fun hboth => hrow hboth.2]
    · rw [if_neg htable, if_neg fun hboth => htable hboth.1]

theorem cell_dropTable {table : String} {engine : WideColumnEngine ψ}
    (h : self.dropTable table = .ok engine) (table' rowKey column : String) :
    engine.cell table' rowKey column =
      if table' = table then none else self.cell table' rowKey column := by
  rw [dropTable] at h
  split_ifs at h
  obtain rfl := Except.ok.inj h
  rw [cell, cell]
  dsimp only
  rw [Table.lookup_erase]
  split_ifs <;> rfl

theorem cell_createTable {table : String} {engine : WideColumnEngine ψ}
    (h : self.createTable table = .ok engine) (table' rowKey column : String) :
    engine.cell table' rowKey column = self.cell table' rowKey column := by
  rw [createTable] at h
  split_ifs at h with hmem
  obtain rfl := Except.ok.inj h
  rw [cell_insert]
  split_ifs with htable
  · rw [htable, cell, AList.lookup_eq_none.mpr hmem]
    rfl
  · rfl

/-- What an effect leaves of a cell. -/
def cellAfter (table rowKey column : String) (old : Option (Cell ψ)) (effect : Effect ψ) :
    Option (Cell ψ) :=
  if effect.removes table rowKey column then none
  else
    match effect.write table rowKey column with
    | some write => laterCell old write.cell
    | none => old

theorem cellAfter_dropTable (table rowKey column name : String) (old : Option (Cell ψ)) :
    cellAfter table rowKey column old (.dropTable name) = if table = name then none else old := by
  simp only [cellAfter, Effect.removes, Effect.write, decide_eq_true_eq]

theorem cellAfter_deleteCell (table rowKey column table' rowKey' column' : String)
    (old : Option (Cell ψ)) :
    cellAfter table rowKey column old (.deleteCell table' rowKey' column') =
      if table = table' ∧ rowKey = rowKey' ∧ column = column' then none else old := by
  simp only [cellAfter, Effect.removes, Effect.write, decide_eq_true_eq]

theorem cellAfter_deleteRow (table rowKey column table' rowKey' : String)
    (old : Option (Cell ψ)) :
    cellAfter table rowKey column old (.deleteRow table' rowKey') =
      if table = table' ∧ rowKey = rowKey' then none else old := by
  simp only [cellAfter, Effect.removes, Effect.write, decide_eq_true_eq]

theorem cellAfter_put (table rowKey column table' rowKey' : String) (columns : Table String ψ)
    (timestamp : UInt64) (automatic : Bool) (old : Option (Cell ψ)) :
    cellAfter table rowKey column old (.put table' rowKey' columns timestamp automatic) =
      if table = table' ∧ rowKey = rowKey' then
        match columns.lookup column with
        | some value => laterCell old ⟨value, timestamp⟩
        | none => old
      else old := by
  rw [cellAfter, Effect.removes, if_neg Bool.false_ne_true, Effect.write]
  split_ifs
  · cases columns.lookup column <;> rfl
  · rfl

theorem cell_of_not_mem {table : String} (h : table ∉ self.tables) (rowKey column : String) :
    self.cell table rowKey column = none := by
  rw [cell, AList.lookup_eq_none.mpr h]
  rfl

/-- Every operation does to a cell what its effect says; one that fails finds no cell to change. -/
theorem cell_apply (op : WideOp ψ) (table rowKey column : String) :
    (self.apply op).cell table rowKey column =
      match op.effect self.clock with
      | some effect => cellAfter table rowKey column (self.cell table rowKey column) effect
      | none => self.cell table rowKey column := by
  cases op with
  | createTable name =>
    rw [apply]
    cases h : self.createTable name with
    | error e => rfl
    | ok engine => exact cell_createTable h table rowKey column
  | dropTable name =>
    rw [apply, WideOp.effect]
    dsimp only
    rw [cellAfter_dropTable]
    cases h : self.dropTable name with
    | error e =>
      have hname : name ∉ self.tables := fun hmem => by
        rw [dropTable, if_pos hmem] at h
        cases h
      split_ifs with htable
      · exact cell_of_not_mem (htable ▸ hname) rowKey column
      · rfl
    | ok engine => exact cell_dropTable h table rowKey column
  | put table' rowKey' columns timestamp =>
    rw [apply, WideOp.effect]
    dsimp only
    rw [cellAfter_put]
    cases h : self.put table' rowKey' columns timestamp with
    | error e =>
      have hempty : columns.entries = [] := by
        by_contra hsome
        rw [put, if_neg hsome] at h
        cases h
      have hnone : columns.lookup column = none := by
        rw [AList.lookup, hempty]
        rfl
      rw [hnone]
      split_ifs <;> rfl
    | ok engine => exact cell_put h table rowKey column
  | deleteCell table' rowKey' column' =>
    rw [apply, WideOp.effect]
    dsimp only
    rw [cellAfter_deleteCell]
    cases h : self.deleteCell table' rowKey' column' with
    | error e =>
      have hnone : self.tables.lookup table' = none := by
        rw [deleteCell] at h
        cases ht : self.tables.lookup table' with
        | none => rfl
        | some t =>
          rw [ht] at h
          dsimp only at h
          split at h <;> cases h
      split_ifs with hsame
      · exact cell_of_not_mem (hsame.1 ▸ AList.lookup_eq_none.mp hnone) rowKey column
      · rfl
    | ok result => exact cell_deleteCell h table rowKey column
  | deleteRow table' rowKey' =>
    rw [apply, WideOp.effect]
    dsimp only
    rw [cellAfter_deleteRow]
    cases h : self.deleteRow table' rowKey' with
    | error e =>
      have hnone : self.tables.lookup table' = none := by
        rw [deleteRow] at h
        cases ht : self.tables.lookup table' with
        | none => rfl
        | some t =>
          rw [ht] at h
          cases h
      split_ifs with hsame
      · exact cell_of_not_mem (hsame.1 ▸ AList.lookup_eq_none.mp hnone) rowKey column
      · rfl
    | ok result => exact cell_deleteRow h table rowKey column

end WideColumnEngine

/-! ## All operations -/

theorem map_argmax_concat (writes : List (Write ψ)) (write : Write ψ) :
    ((writes ++ [write]).argmax Write.time).map Write.cell =
      laterCell ((writes.argmax Write.time).map Write.cell) write.cell := by
  rw [List.argmax_concat]
  cases writes.argmax Write.time with
  | none => rfl
  | some kept =>
    rw [Option.map_some, laterCell]
    dsimp only
    by_cases hle : write.cell.timestamp ≤ kept.cell.timestamp
    · have hnot : ¬ kept.time < write.time := Nat.not_lt.mpr (UInt64.le_iff_toNat_le.mp hle)
      rw [if_neg hnot, if_pos hle]
      rfl
    · have hlt : kept.time < write.time := Nat.lt_of_not_le (mt UInt64.le_iff_toNat_le.mpr hle)
      rw [if_pos hlt, if_neg hle]
      rfl

theorem live_concat (table rowKey column : String) (history : List (Effect ψ))
    (effect : Effect ψ) : live table rowKey column (history ++ [effect]) =
      if effect.removes table rowKey column then []
      else live table rowKey column history ++ (effect.write table rowKey column).toList := by
  rw [live, List.foldl_append]
  rfl

theorem after_concat (ops : List (WideOp ψ)) (op : WideOp ψ) :
    after (ops ++ [op]) = (after ops).step op := by
  rw [after, List.foldl_append]
  rfl

/-- A cell shows the first write with the greatest timestamp of those since it was last removed. -/
theorem cell_after (ops : List (WideOp ψ)) (table rowKey column : String) :
    (after ops).engine.cell table rowKey column =
      ((live table rowKey column (after ops).history).argmax Write.time).map Write.cell := by
  induction ops using List.reverseRecOn with
  | nil => rfl
  | append_singleton ops op ih =>
    rw [after_concat, WideRun.step]
    dsimp only
    rw [WideColumnEngine.cell_apply, ih]
    cases op.effect (after ops).engine.clock with
    | none => rw [Option.toList_none, List.append_nil]
    | some effect =>
      rw [Option.toList_some, live_concat]
      dsimp only
      rw [WideColumnEngine.cellAfter]
      by_cases hremoves : effect.removes table rowKey column = true
      · rw [if_pos hremoves, if_pos hremoves]
        rfl
      · rw [if_neg hremoves, if_neg hremoves]
        cases effect.write table rowKey column with
        | none => rw [Option.toList_none, List.append_nil]
        | some write => exact (map_argmax_concat _ write).symm

/-! ## The order of writes -/

theorem live_of_not_removed {table rowKey column : String} {history : List (Effect ψ)}
    (h : ∀ effect ∈ history, effect.removes table rowKey column = false) :
    live table rowKey column history =
      history.filterMap fun effect => effect.write table rowKey column := by
  induction history using List.reverseRecOn with
  | nil => rfl
  | append_singleton history effect ih =>
    have hfront : ∀ effect ∈ history, effect.removes table rowKey column = false :=
      fun effect' h' => h effect' (List.mem_append_left _ h')
    have hlast := h effect (List.mem_append_right _ List.mem_cons_self)
    rw [live_concat, hlast, if_neg Bool.false_ne_true, ih hfront, List.filterMap_append]
    cases hwrite : effect.write table rowKey column <;>
      simp only [List.filterMap_cons, hwrite, Option.toList, List.filterMap_nil]

/-- The greatest of writes at different times does not depend on their order. -/
theorem argmax_eq_of_perm {writes writes' : List (Write ψ)} (hperm : writes.Perm writes')
    (hdistinct : (writes.map Write.time).Nodup) :
    writes.argmax Write.time = writes'.argmax Write.time := by
  cases hmax : writes.argmax Write.time with
  | none =>
    rw [List.argmax_eq_none] at hmax
    rw [hmax, List.nil_perm] at hperm
    rw [hperm]
    rfl
  | some w =>
    cases hmax' : writes'.argmax Write.time with
    | none =>
      rw [List.argmax_eq_none] at hmax'
      rw [hmax', List.perm_nil] at hperm
      rw [hperm] at hmax
      cases hmax
    | some w' =>
      have hw := List.argmax_mem hmax
      have hw' := hperm.mem_iff.mpr (List.argmax_mem hmax')
      have hle : w'.time ≤ w.time := List.le_of_mem_argmax hw' hmax
      have hle' : w.time ≤ w'.time := List.le_of_mem_argmax (hperm.mem_iff.mp hw) hmax'
      exact congrArg some (List.inj_on_of_nodup_map hdistinct hw hw' (le_antisymm hle' hle))

/-! ## The clock -/

theorem automaticPuts_concat (history : List (Effect ψ)) (effect : Effect ψ) :
    automaticPuts (history ++ [effect]) = automaticPuts history + automaticPuts [effect] :=
  List.countP_append

/-- Only a write that takes a timestamp from the clock moves it. -/
theorem WideColumnEngine.clock_apply (self : WideColumnEngine ψ) (op : WideOp ψ) :
    (self.apply op).clock =
      match op with
      | .put _ _ columns none => if columns.entries = [] then self.clock else self.clock + 1
      | _ => self.clock := by
  cases op with
  | createTable name =>
    rw [apply, createTable]
    split_ifs <;> rfl
  | dropTable name =>
    rw [apply, dropTable]
    split_ifs <;> rfl
  | put table rowKey columns timestamp =>
    rw [apply, put]
    by_cases hempty : columns.entries = []
    · rw [if_pos hempty]
      cases timestamp with
      | none => exact (if_pos hempty).symm
      | some timestamp => rfl
    · rw [if_neg hempty]
      cases timestamp with
      | none => exact (if_neg hempty).symm
      | some timestamp => rfl
  | deleteCell table rowKey column =>
    rw [apply, deleteCell]
    cases self.tables.lookup table with
    | none => rfl
    | some t =>
      dsimp only
      cases t.rows.lookup rowKey <;> rfl
  | deleteRow table rowKey =>
    rw [apply, deleteRow]
    cases self.tables.lookup table <;> rfl

theorem Effect.write_put_nil {columns : Table String ψ} (h : columns.entries = [])
    (table rowKey column table' rowKey' : String) (timestamp : UInt64) (automatic : Bool) :
    (Effect.put table' rowKey' columns timestamp automatic).write table rowKey column = none := by
  rw [write, AList.lookup, h]
  split_ifs <;> rfl

theorem Effect.write_put_eq_some {columns : Table String ψ}
    {table rowKey column table' rowKey' : String} {timestamp : UInt64} {automatic : Bool}
    {w : Write ψ} (h : (Effect.put table' rowKey' columns timestamp automatic).write
      table rowKey column = some w) :
    w.cell.timestamp = timestamp ∧ w.automatic = automatic := by
  rw [write] at h
  split_ifs at h
  obtain ⟨value, -, rfl⟩ := Option.map_eq_some_iff.mp h
  exact ⟨rfl, rfl⟩

/-- All writes with a timestamp of the clock are behind it. -/
def AutomaticBefore (clock : UInt64) (history : List (Effect ψ)) : Prop :=
  ∀ effect ∈ history, ∀ table rowKey column, ∀ w : Write ψ,
    effect.write table rowKey column = some w → w.automatic = true → w.time < clock.toNat

theorem AutomaticBefore.concat {clock clock' : UInt64} {history : List (Effect ψ)}
    (h : AutomaticBefore clock history) (hle : clock.toNat ≤ clock'.toNat) {effect : Effect ψ}
    (hlast : ∀ table rowKey column, ∀ w : Write ψ,
      effect.write table rowKey column = some w → w.automatic = true → w.time < clock'.toNat) :
    AutomaticBefore clock' (history ++ [effect]) := by
  intro effect' heffect table rowKey column w hw hautomatic
  rcases List.mem_append.mp heffect with hold | hnew
  · exact (h effect' hold table rowKey column w hw hautomatic).trans_le hle
  · rw [List.mem_singleton.mp hnew] at hw
    exact hlast table rowKey column w hw hautomatic

/-- The clock has counted no more than the writes that took a timestamp from it, and is later than
they are. -/
theorem clock_after (ops : List (WideOp ψ))
    (hcount : automaticPuts (after ops).history + 1 < 2 ^ 64) :
    (after ops).engine.clock.toNat ≤ automaticPuts (after ops).history + 1 ∧
      AutomaticBefore (after ops).engine.clock (after ops).history := by
  induction ops using List.reverseRecOn with
  | nil => exact ⟨le_rfl, fun _ h => (nomatch h)⟩
  | append_singleton ops op ih =>
    rw [after_concat, WideRun.step] at hcount ⊢
    dsimp only at hcount ⊢
    rw [WideColumnEngine.clock_apply]
    cases op with
    | createTable name =>
      rw [WideOp.effect, Option.toList_none, List.append_nil] at hcount ⊢
      exact ih hcount
    | dropTable name =>
      rw [WideOp.effect, Option.toList_some, automaticPuts_concat] at hcount ⊢
      obtain ⟨hle, hbefore⟩ := ih hcount
      exact ⟨hle, hbefore.concat le_rfl fun _ _ _ _ hw => (nomatch hw)⟩
    | deleteCell table rowKey column =>
      rw [WideOp.effect, Option.toList_some, automaticPuts_concat] at hcount ⊢
      obtain ⟨hle, hbefore⟩ := ih hcount
      exact ⟨hle, hbefore.concat le_rfl fun _ _ _ _ hw => (nomatch hw)⟩
    | deleteRow table rowKey =>
      rw [WideOp.effect, Option.toList_some, automaticPuts_concat] at hcount ⊢
      obtain ⟨hle, hbefore⟩ := ih hcount
      exact ⟨hle, hbefore.concat le_rfl fun _ _ _ _ hw => (nomatch hw)⟩
    | put table rowKey columns timestamp =>
      rw [WideOp.effect, Option.toList_some, automaticPuts_concat] at hcount ⊢
      cases timestamp with
      | some timestamp =>
        obtain ⟨hle, hbefore⟩ := ih hcount
        refine ⟨hle, hbefore.concat le_rfl fun _ _ _ w hw hautomatic => ?_⟩
        rw [(Effect.write_put_eq_some hw).2] at hautomatic
        cases hautomatic
      | none =>
        have hone : automaticPuts [Effect.put table rowKey columns
            (Option.getD none (after ops).engine.clock) (Option.isNone (none : Option UInt64))] =
            1 := rfl
        rw [hone] at hcount ⊢
        obtain ⟨hle, hbefore⟩ := ih (by omega)
        dsimp only
        by_cases hempty : columns.entries = []
        · rw [if_pos hempty]
          refine ⟨by omega, hbefore.concat le_rfl fun table' rowKey' column w hw _ => ?_⟩
          rw [Effect.write_put_nil hempty] at hw
          cases hw
        · have htick : ((after ops).engine.clock + 1).toNat =
              (after ops).engine.clock.toNat + 1 := by
            rw [UInt64.toNat_add, UInt64.toNat_one]
            exact Nat.mod_eq_of_lt (by omega)
          rw [if_neg hempty, htick]
          refine ⟨by omega, hbefore.concat (by omega) fun table' rowKey' column w hw _ => ?_⟩
          rw [Write.time, (Effect.write_put_eq_some hw).1, htick]
          exact Nat.lt_succ_self _

theorem exists_effect_of_mem_live {table rowKey column : String} {history : List (Effect ψ)}
    {w : Write ψ} (h : w ∈ live table rowKey column history) :
    ∃ effect ∈ history, effect.write table rowKey column = some w := by
  induction history using List.reverseRecOn with
  | nil => cases h
  | append_singleton history effect ih =>
    rw [live_concat] at h
    split_ifs at h
    · cases h
    · rcases List.mem_append.mp h with hold | hnew
      · obtain ⟨effect', heffect, hw⟩ := ih hold
        exact ⟨effect', List.mem_append_left _ heffect, hw⟩
      · exact ⟨effect, List.mem_append_right _ List.mem_cons_self, Option.mem_toList.mp hnew⟩

/-- A cell behind a write without a timestamp: the new value, or that of a write with a timestamp
that was supplied and is not before the clock. -/
theorem cell_apply_automatic (ops : List (WideOp ψ))
    (hcount : automaticPuts (after ops).history + 1 < 2 ^ 64) (table rowKey : String)
    {columns : Table String ψ} {column : String} {value : ψ}
    (hvalue : columns.lookup column = some value) :
    ((after ops).engine.apply (.put table rowKey columns none)).cell table rowKey column =
        some ⟨value, (after ops).engine.clock⟩ ∨
      ∃ w ∈ live table rowKey column (after ops).history, w.automatic = false ∧
        (after ops).engine.clock ≤ w.cell.timestamp ∧
        ((after ops).engine.apply (.put table rowKey columns none)).cell table rowKey column =
          some w.cell := by
  obtain ⟨-, hbefore⟩ := clock_after ops hcount
  rw [WideColumnEngine.cell_apply, cell_after, WideOp.effect]
  dsimp only
  rw [WideColumnEngine.cellAfter_put, if_pos ⟨rfl, rfl⟩, hvalue]
  dsimp only
  cases hmax : (live table rowKey column (after ops).history).argmax Write.time with
  | none => exact Or.inl rfl
  | some w =>
    rw [Option.map_some, laterCell]
    dsimp only
    by_cases hle : (after ops).engine.clock ≤ w.cell.timestamp
    · refine Or.inr ⟨w, List.argmax_mem hmax, ?_, hle, if_pos hle⟩
      obtain ⟨effect, heffect, hw⟩ := exists_effect_of_mem_live (List.argmax_mem hmax)
      cases hautomatic : w.automatic with
      | false => rfl
      | true =>
        -- a timestamp of the clock would be behind it
        have hlt := hbefore effect heffect table rowKey column w hw hautomatic
        exact absurd (UInt64.le_iff_toNat_le.mp hle) (Nat.not_le.mpr hlt)
    · exact Or.inl (if_neg hle)

/-! ## The result -/

/-- A cell shows the first write with the greatest timestamp of those that were made since it was
last removed, whatever timestamps these had.  Writes that are not equally old and nothing that
removes the cell can be in any order.  Of fewer than `2 ^ 64 - 1` writes without a timestamp, none
is hidden by another that was before it, but only by one with a timestamp that was supplied. -/
theorem lastWriteWins :
    (∀ (ops : List (WideOp ψ)) (table rowKey column : String),
      (after ops).engine.cell table rowKey column =
        ((live table rowKey column (after ops).history).argmax Write.time).map Write.cell) ∧
    (∀ (ops ops' : List (WideOp ψ)) (table rowKey column : String),
      (after ops).history.Perm (after ops').history →
      (∀ effect ∈ (after ops).history, effect.removes table rowKey column = false) →
      ((live table rowKey column (after ops).history).map Write.time).Nodup →
      (after ops).engine.cell table rowKey column =
        (after ops').engine.cell table rowKey column) ∧
    (∀ (ops : List (WideOp ψ)) (table rowKey : String) (columns : Table String ψ)
      (column : String) (value : ψ),
      automaticPuts (after ops).history + 1 < 2 ^ 64 → columns.lookup column = some value →
      (after (ops ++ [.put table rowKey columns none])).engine.cell table rowKey column =
          some ⟨value, (after ops).engine.clock⟩ ∨
        ∃ w ∈ live table rowKey column (after ops).history, w.automatic = false ∧
          (after ops).engine.clock ≤ w.cell.timestamp ∧
          (after (ops ++ [.put table rowKey columns none])).engine.cell table rowKey column =
            some w.cell) := by
  refine ⟨cell_after, fun ops ops' table rowKey column hperm hkept hdistinct => ?_,
    fun ops table rowKey columns column value hcount hvalue => ?_⟩
  · have hkept' : ∀ effect ∈ (after ops').history,
        effect.removes table rowKey column = false :=
      fun effect h => hkept effect (hperm.mem_iff.mpr h)
    rw [live_of_not_removed hkept] at hdistinct
    rw [cell_after, cell_after, live_of_not_removed hkept, live_of_not_removed hkept',
      argmax_eq_of_perm (hperm.filterMap _) hdistinct]
  · rw [after_concat]
    exact cell_apply_automatic ops hcount table rowKey hvalue

/-- A write of a cell at some time, and at that of the clock. -/
def writeCell (value : ℕ) (timestamp : Option UInt64) : WideOp ℕ :=
  .put "t" "r" (AList.singleton "c" value) timestamp

/-- Two writes of a cell in both orders, and a third at a time of the clock behind writes at
smaller times. -/
theorem lastWriteWins_writeCell :
    (after [writeCell 1 (some 5), writeCell 2 (some 7)]).engine.cell "t" "r" "c" =
        (after [writeCell 2 (some 7), writeCell 1 (some 5)]).engine.cell "t" "r" "c" ∧
      (after ([writeCell 1 (some 0), writeCell 2 none] ++ [writeCell 3 none])).engine.cell
        "t" "r" "c" = some ⟨3, 2⟩ := by
  refine ⟨lastWriteWins.2.1 _ _ "t" "r" "c" (List.Perm.swap _ _ _) (by decide +kernel)
    (by decide +kernel), ?_⟩
  rcases lastWriteWins.2.2 [writeCell 1 (some 0), writeCell 2 none] "t" "r"
    (AList.singleton "c" 3) "c" 3 (by decide +kernel) rfl with hshown | ⟨w, hw, hsupplied, hle, -⟩
  · exact hshown
  · have hsmall : ∀ w ∈ live "t" "r" "c"
        (after [writeCell 1 (some 0), writeCell 2 none]).history,
        w.cell.timestamp < (after [writeCell 1 (some 0), writeCell 2 none]).engine.clock := by
      decide +kernel
    exact absurd (UInt64.le_iff_toNat_le.mp hle)
      (Nat.not_le.mpr (UInt64.lt_iff_toNat_lt.mp (hsmall w hw)))

/-- A deletion does not hide a write that is later than it, and a write at a time of the clock is
hidden by one before it whose time was supplied. -/
theorem not_lastWriteWins :
    ¬(∀ ops ops' : List (WideOp ℕ), ops.Perm ops' →
      ∀ table rowKey column, (after ops).engine.cell table rowKey column =
        (after ops').engine.cell table rowKey column) ∧
    ¬(∀ (ops : List (WideOp ℕ)) (table rowKey : String) (columns : Table String ℕ)
      (column : String) (value : ℕ), columns.lookup column = some value →
      (after (ops ++ [.put table rowKey columns none])).engine.cell table rowKey column =
        some ⟨value, (after ops).engine.clock⟩) := by
  refine ⟨fun h => ?_, fun h => ?_⟩
  · have hcells := h [writeCell 1 (some 5), .deleteCell "t" "r" "c"]
      [.deleteCell "t" "r" "c", writeCell 1 (some 5)] (List.Perm.swap _ _ _) "t" "r" "c"
    revert hcells
    decide +kernel
  · have hcell := h [writeCell 1 (some 100)] "t" "r" (AList.singleton "c" 2) "c" 2 rfl
    revert hcell
    decide +kernel

end AegisDB.WideColumn
