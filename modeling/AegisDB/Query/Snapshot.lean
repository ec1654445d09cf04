import AegisDB.Query.Statement

/-!
# Snapshots of the execution context

A snapshot has the data of the tables, the schemas and the metadata of the indexes.  Tables and
schemas are listed without the names under which they are stored, and go back under their own
names; a poisoned table is left out; the contents of indexes are made again from the rows.  So a
context comes back from its snapshot if and only if its tables and schemas are stored under their
own names, no table is poisoned, and the indexes have what their rows give.
-/

namespace AegisDB

namespace Query

/-- A snapshot of an execution context. -/
structure ExecutionContextSnapshot where
  tables : List TableData
  schemas : List TableSchema
  indexes : Table String (List IndexSchema)

/-- The order in which hash maps give what they hold. -/
structure HashOrder where
  tables : Table String SharedTable → List SharedTable
  tables_perm : ∀ t, (tables t).Perm t.values
  schemas : Table String TableSchema → List TableSchema
  schemas_perm : ∀ t, (schemas t).Perm t.values
  indexes : Table String (List IndexSchema) → List (Σ _ : String, List IndexSchema)
  indexes_perm : ∀ t, (indexes t).Perm t.entries

/-- Hash maps that give what they hold in the order in which it was put there. -/
def HashOrder.insertion : HashOrder where
  tables := Table.values
  tables_perm _ := List.Perm.refl _
  schemas := Table.values
  schemas_perm _ := List.Perm.refl _
  indexes t := t.entries
  indexes_perm _ := List.Perm.refl _

namespace ExecutionContext

variable (text : DebugText) (order : HashOrder) (ctx : ExecutionContext)

def toSnapshot : ExecutionContextSnapshot where
  tables := ((order.tables ctx.tables).filter fun shared => !shared.poisoned).map SharedTable.data
  schemas := order.schemas ctx.tableSchemas
  indexes := ctx.indexes

/-- Make an index again.  What goes wrong is passed over. -/
def rebuild (table : String) (ctx : ExecutionContext) (index : IndexSchema) : ExecutionContext :=
  (ctx.rebuildIndex text index.name table index.columns index.unique).1

def rebuildAll (entries : List (Σ _ : String, List IndexSchema)) : ExecutionContext :=
  entries.foldl (fun ctx e => e.2.foldl (rebuild text e.1) ctx) ctx

/-- Put a snapshot in the place of what the context holds.  The clock goes on. -/
def restoreFromSnapshot (snapshot : ExecutionContextSnapshot) : ExecutionContext :=
  rebuildAll text
    { tables := Table.ofValues (·.data.name) (snapshot.tables.map fun data => ⟨data, false⟩)
      tableSchemas := Table.ofValues TableSchema.name snapshot.schemas
      indexes := snapshot.indexes
      tableIndexes := ∅
      versionClock := ctx.versionClock
      snapshotVersion := none }
    (order.indexes snapshot.indexes)

/-! ## The contents of indexes -/

/-- An index that is made again in a manager of the indexes of a table. -/
def rebuiltManager (shared : SharedTable) (manager : TableIndexManager) (index : IndexSchema) :
    TableIndexManager :=
  match manager.createIndex index.name index.columns index.unique with
  | .error _ => manager
  | .ok manager =>
      if shared.poisoned then manager
      else (populateIndex text index.name shared.data.columns index.columns 0 shared.data.rows
        manager).1

def rebuilt (table : String) : TableIndexManager :=
  match ctx.tables.lookup table, ctx.indexes.lookup table with
  | some shared, some indexes => indexes.foldl (rebuiltManager text shared) .new
  | _, _ => .new

def manager (table : String) : TableIndexManager :=
  (ctx.tableIndexes.lookup table).getD .new

theorem rebuild_eq (table : String) (index : IndexSchema) :
    rebuild text table ctx index =
      match ctx.tables.lookup table with
      | none => ctx
      | some shared =>
          let manager := rebuiltManager text shared (ctx.manager table) index
          { ctx with tableIndexes := ctx.tableIndexes.insert table manager } := by
  unfold rebuild rebuildIndex rebuiltManager manager
  cases ctx.tables.lookup table with
  | none => rfl
  | some shared =>
    dsimp only
    cases TableIndexManager.createIndex _ index.name index.columns index.unique with
    | error e => rfl
    | ok manager =>
      dsimp only
      split_ifs <;> rfl

theorem rebuild_frame (table : String) (index : IndexSchema) :
    ∃ tableIndexes, rebuild text table ctx index = { ctx with tableIndexes } := by
  rw [rebuild_eq]
  cases ctx.tables.lookup table with
  | none => exact ⟨ctx.tableIndexes, rfl⟩
  | some shared => exact ⟨_, rfl⟩

theorem manager_rebuild (table table' : String) (index : IndexSchema) :
    (rebuild text table ctx index).manager table' =
      if table' = table then
        match ctx.tables.lookup table with
        | none => ctx.manager table
        | some shared => rebuiltManager text shared (ctx.manager table) index
      else ctx.manager table' := by
  rw [rebuild_eq]
  split_ifs with h
  · subst h
    cases ctx.tables.lookup table' with
    | none => rfl
    | some shared =>
      dsimp only
      rw [manager, AList.lookup_insert]
      rfl
  · cases ctx.tables.lookup table with
    | none => rfl
    | some shared =>
      dsimp only
      rw [manager, AList.lookup_insert_ne h]
      rfl

theorem foldl_rebuild (table : String) (indexes : List IndexSchema) :
    (∃ tableIndexes, indexes.foldl (rebuild text table) ctx = { ctx with tableIndexes }) ∧
      ∀ table', (indexes.foldl (rebuild text table) ctx).manager table' =
        if table' = table then
          match ctx.tables.lookup table with
          | none => ctx.manager table
          | some shared => indexes.foldl (rebuiltManager text shared) (ctx.manager table)
        else ctx.manager table' := by
  induction indexes generalizing ctx with
  | nil =>
    refine ⟨⟨ctx.tableIndexes, rfl⟩, fun table' => ?_⟩
    split_ifs with h
    · subst h
      cases ctx.tables.lookup table' <;> rfl
    · rfl
  | cons index indexes ih =>
    obtain ⟨tableIndexes, hframe⟩ := rebuild_frame text ctx table index
    obtain ⟨⟨tableIndexes', hframe'⟩, hmanager⟩ := ih (rebuild text table ctx index)
    rw [List.foldl_cons]
    refine ⟨⟨tableIndexes', by rw [hframe', hframe]⟩, fun table' => ?_⟩
    have htables : (rebuild text table ctx index).tables = ctx.tables := by rw [hframe]
    rw [hmanager, htables, manager_rebuild, manager_rebuild, if_pos rfl]
    split_ifs with h
    · cases ctx.tables.lookup table <;> rfl
    · rfl

theorem foldl_rebuildAll {entries : List (Σ _ : String, List IndexSchema)}
    (hkeys : entries.NodupKeys) :
    (∃ tableIndexes, ctx.rebuildAll text entries = { ctx with tableIndexes }) ∧
      ∀ table, (ctx.rebuildAll text entries).manager table =
        match ctx.tables.lookup table, entries.dlookup table with
        | some shared, some indexes =>
            indexes.foldl (rebuiltManager text shared) (ctx.manager table)
        | _, _ => ctx.manager table := by
  unfold rebuildAll
  induction entries generalizing ctx with
  | nil =>
    refine ⟨⟨ctx.tableIndexes, rfl⟩, fun table => ?_⟩
    cases ctx.tables.lookup table <;> rfl
  | cons e entries ih =>
    obtain ⟨table, indexes⟩ := e
    obtain ⟨hfresh, hkeys⟩ := List.nodupKeys_cons.mp hkeys
    obtain ⟨⟨tableIndexes, hframe⟩, hmanager⟩ := foldl_rebuild text ctx table indexes
    obtain ⟨⟨tableIndexes', hframe'⟩, hmanager'⟩ :=
      ih (indexes.foldl (rebuild text table) ctx) hkeys
    rw [List.foldl_cons]
    refine ⟨⟨tableIndexes', by rw [hframe', hframe]⟩, fun table' => ?_⟩
    have htables : (indexes.foldl (rebuild text table) ctx).tables = ctx.tables := by rw [hframe]
    rw [hmanager', htables, hmanager]
    by_cases h : table' = table
    · subst h
      have hnone : entries.dlookup table' = none := List.dlookup_eq_none.mpr hfresh
      rw [hnone, List.dlookup_cons_eq, if_pos rfl]
      cases ctx.tables.lookup table' <;> rfl
    · rw [List.dlookup_cons_ne _ _ h, if_neg h]

end ExecutionContext

/-! ## Contexts that come back -/

/-- What can be told of an index: its columns, whether it is unique, and the positions under each
key. -/
def BTreeIndex.facts (index : BTreeIndex) : List String × Bool × (IndexKey → List ℕ) :=
  (index.columns, index.unique, index.get)

def TableIndexManager.Same (m m' : TableIndexManager) : Prop :=
  ∀ name, (m.btreeIndexes.lookup name).map BTreeIndex.facts =
    (m'.btreeIndexes.lookup name).map BTreeIndex.facts

namespace ExecutionContext

/-- Two contexts hold the same tables, schemas and indexes. -/
structure SameData (ctx ctx' : ExecutionContext) : Prop where
  tables : ∀ name, ctx.tables.lookup name = ctx'.tables.lookup name
  tableSchemas : ∀ name, ctx.tableSchemas.lookup name = ctx'.tableSchemas.lookup name
  indexes : ∀ name, ctx.indexes.lookup name = ctx'.indexes.lookup name
  managers : ∀ name, (ctx.manager name).Same (ctx'.manager name)

/-- Two contexts hold the same at the same version. -/
structure Same (ctx ctx' : ExecutionContext) : Prop extends SameData ctx ctx' where
  versionClock : ctx.versionClock = ctx'.versionClock

@[refl] theorem SameData.refl (ctx : ExecutionContext) : ctx.SameData ctx where
  tables _ := rfl
  tableSchemas _ := rfl
  indexes _ := rfl
  managers _ _ := rfl

theorem SameData.trans {ctx₁ ctx₂ ctx₃ : ExecutionContext} (h : ctx₁.SameData ctx₂)
    (h' : ctx₂.SameData ctx₃) : ctx₁.SameData ctx₃ where
  tables name := (h.tables name).trans (h'.tables name)
  tableSchemas name := (h.tableSchemas name).trans (h'.tableSchemas name)
  indexes name := (h.indexes name).trans (h'.indexes name)
  managers name index := (h.managers name index).trans (h'.managers name index)

theorem SameData.rollbackSnapshot {ctx ctx' : ExecutionContext} (h : ctx.SameData ctx') :
    ctx.rollbackSnapshot.SameData ctx' :=
  ⟨h.tables, h.tableSchemas, h.indexes, h.managers⟩

/-- A context whose tables and schemas are stored under their own names, with no table poisoned, and
whose indexes have what the rows give. -/
structure Restorable (text : DebugText) (ctx : ExecutionContext) : Prop where
  tables : ∀ name shared, ctx.tables.lookup name = some shared →
    shared.data.name = name ∧ shared.poisoned = false
  tableSchemas : ∀ name schema, ctx.tableSchemas.lookup name = some schema → schema.name = name
  managers : ∀ table, (ctx.rebuilt text table).Same (ctx.manager table)

section Restoring

variable {text : DebugText} {order : HashOrder} {ctx before : ExecutionContext}

theorem map_tables_toSnapshot : (before.toSnapshot order).tables.map (fun data => ⟨data, false⟩) =
    (order.tables before.tables).filter fun shared => !shared.poisoned := by
  rw [toSnapshot, List.map_map]
  refine (List.map_congr_left fun shared hshared => ?_).trans (List.map_id _)
  obtain ⟨data, poisoned⟩ := shared
  have hpoisoned : poisoned = false := by simpa using (List.mem_filter.mp hshared).2
  rw [hpoisoned]
  rfl

theorem lookup_tables_restore_iff :
    (∀ name, (Table.ofValues (fun shared : SharedTable => shared.data.name)
        ((before.toSnapshot order).tables.map fun data => ⟨data, false⟩)).lookup name =
          before.tables.lookup name) ↔
      ∀ name shared, before.tables.lookup name = some shared →
        shared.data.name = name ∧ shared.poisoned = false := by
  have hmem (shared : SharedTable) : shared ∈ (before.toSnapshot order).tables.map
      (fun data => (⟨data, false⟩ : SharedTable)) ↔
        shared ∈ before.tables.values ∧ shared.poisoned = false := by
    rw [map_tables_toSnapshot, List.mem_filter, (order.tables_perm before.tables).mem_iff]
    simp
  rw [Table.lookup_ofValues_iff fun shared hshared => ((hmem shared).mp hshared).1]
  refine forall₃_congr fun name shared hshared => and_congr_right fun _ => ?_
  rw [hmem]
  exact and_iff_right (Table.mem_values.mpr ⟨name, hshared⟩)

theorem lookup_tableSchemas_restore_iff :
    (∀ name, (Table.ofValues TableSchema.name (before.toSnapshot order).schemas).lookup name =
        before.tableSchemas.lookup name) ↔
      ∀ name schema, before.tableSchemas.lookup name = some schema → schema.name = name := by
  have hmem (schema : TableSchema) : schema ∈ (before.toSnapshot order).schemas ↔
      schema ∈ before.tableSchemas.values := (order.schemas_perm before.tableSchemas).mem_iff
  rw [Table.lookup_ofValues_iff fun schema hschema => (hmem schema).mp hschema]
  refine forall₃_congr fun name schema hschema => and_iff_left ?_
  exact (hmem schema).mpr (Table.mem_values.mpr ⟨name, hschema⟩)

theorem versionClock_restore (snapshot : ExecutionContextSnapshot) :
    (ctx.restoreFromSnapshot text order snapshot).versionClock = ctx.versionClock := by
  have hkeys : (order.indexes snapshot.indexes).NodupKeys :=
    (List.perm_nodupKeys (order.indexes_perm _)).mpr snapshot.indexes.nodupKeys
  obtain ⟨⟨tableIndexes, hframe⟩, -⟩ := foldl_rebuildAll text _ hkeys
  rw [restoreFromSnapshot, hframe]

/-- What a context holds comes back from its snapshot if and only if it can be restored. -/
theorem restore_sameData_iff :
    (ctx.restoreFromSnapshot text order (before.toSnapshot order)).SameData before ↔
      before.Restorable text := by
  have hkeys : (order.indexes before.indexes).NodupKeys :=
    (List.perm_nodupKeys (order.indexes_perm _)).mpr before.indexes.nodupKeys
  have hlookup (table : String) : (order.indexes before.indexes).dlookup table =
      before.indexes.lookup table := List.perm_dlookup table hkeys (order.indexes_perm _)
  let loaded : ExecutionContext :=
    { tables := Table.ofValues (fun shared : SharedTable => shared.data.name)
        ((before.toSnapshot order).tables.map fun data => ⟨data, false⟩)
      tableSchemas := Table.ofValues TableSchema.name (before.toSnapshot order).schemas
      indexes := before.indexes
      tableIndexes := ∅
      versionClock := ctx.versionClock
      snapshotVersion := none }
  obtain ⟨⟨tableIndexes, hframe⟩, hmanager⟩ := foldl_rebuildAll text loaded hkeys
  have hrestore : ctx.restoreFromSnapshot text order (before.toSnapshot order) =
      loaded.rebuildAll text (order.indexes before.indexes) := rfl
  -- The tables decide what the indexes are made of.
  have hrebuilt (h : ∀ name, loaded.tables.lookup name = before.tables.lookup name)
      (table : String) : (loaded.rebuildAll text (order.indexes before.indexes)).manager table =
        before.rebuilt text table := by
    rw [hmanager, hlookup, h, rebuilt]
    cases before.tables.lookup table <;> cases before.indexes.lookup table <;> rfl
  rw [hrestore]
  constructor
  · intro h
    have htables (name : String) : loaded.tables.lookup name = before.tables.lookup name := by
      rw [← h.tables, hframe]
    have hschemas (name : String) : loaded.tableSchemas.lookup name =
        before.tableSchemas.lookup name := by
      rw [← h.tableSchemas, hframe]
    refine ⟨lookup_tables_restore_iff.mp htables, lookup_tableSchemas_restore_iff.mp hschemas,
      fun table => ?_⟩
    rw [← hrebuilt htables]
    exact h.managers table
  · intro h
    have htables (name : String) : loaded.tables.lookup name = before.tables.lookup name :=
      lookup_tables_restore_iff.mpr h.tables name
    refine ⟨fun name => ?_, fun name => ?_, fun name => ?_, fun table => ?_⟩
    · rw [hframe]
      exact htables name
    · rw [hframe]
      exact lookup_tableSchemas_restore_iff.mpr h.tableSchemas name
    · rw [hframe]
    · rw [hrebuilt htables]
      exact h.managers table

theorem restore_same_iff :
    (ctx.restoreFromSnapshot text order (before.toSnapshot order)).Same before ↔
      before.Restorable text ∧ ctx.versionClock = before.versionClock := by
  constructor
  · intro h
    exact ⟨restore_sameData_iff.mp h.toSameData, (versionClock_restore _).symm.trans h.versionClock⟩
  · rintro ⟨h, hclock⟩
    exact ⟨restore_sameData_iff.mpr h, (versionClock_restore _).trans hclock⟩

end Restoring

end ExecutionContext

end Query

end AegisDB
