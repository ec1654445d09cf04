import AegisDB.Query.Statement

/-!
# What a deletion leaves

A table is read here as a list of rows, each with its versions.  A deletion takes from the rows that
are seen those that it selects and whose deletion can be recorded (`TableData.seen_deleteRows`), and
it counts what it selects, recorded or not.
-/

namespace AegisDB

namespace Query

/-! ## Rows with their versions -/

/-- A stored row.  Tables of old snapshots have no place to record deletions. -/
structure VersionedRow where
  row : Row
  created : ℕ
  deleted : Option ℕ

def versionedRows : List Row → List ℕ → List ℕ → List VersionedRow
  | [], _, _ => []
  | row :: rows, created, deleted =>
      ⟨row, created.headD 0, deleted.head?⟩ :: versionedRows rows created.tail deleted.tail

namespace VersionedRow

def isVisible (snapshot : Option ℕ) (r : VersionedRow) : Bool :=
  Query.isVisible snapshot r.created (r.deleted.getD 0)

/-- Record that the row is deleted, if it is selected. -/
def mark (selected : VersionedRow → Bool) (version : ℕ) (r : VersionedRow) : VersionedRow :=
  if selected r then { r with deleted := r.deleted.map fun _ => version } else r

/-- The row as it is seen, and whether its deletion can be recorded. -/
def seen (snapshot : Option ℕ) (r : VersionedRow) : Option (Row × Bool) :=
  if r.isVisible snapshot then some (r.row, r.deleted.isSome) else none

end VersionedRow

theorem getElem?_versionedRows (rows : List Row) (created deleted : List ℕ) (i : ℕ) :
    (versionedRows rows created deleted)[i]? =
      rows[i]?.map fun row => ⟨row, created.getD i 0, deleted[i]?⟩ := by
  induction rows generalizing created deleted i with
  | nil => rfl
  | cons row rows ih =>
    cases i with
    | zero => cases created <;> cases deleted <;> rfl
    | succ i =>
      rw [versionedRows, List.getElem?_cons_succ, List.getElem?_cons_succ, ih]
      cases created <;> cases deleted <;> simp

theorem versionedRows_mapIdx {selected : ℕ → Bool} {q : VersionedRow → Bool} (version : ℕ)
    {rows : List Row} {created deleted : List ℕ}
    (h : ∀ (i : ℕ) r, (versionedRows rows created deleted)[i]? = some r → selected i = q r) :
    versionedRows rows created
        (deleted.mapIdx fun i d => if selected i = true then version else d) =
      (versionedRows rows created deleted).map (VersionedRow.mark q version) := by
  induction rows generalizing created deleted selected with
  | nil => rfl
  | cons row rows ih =>
    have hfirst := h 0 _ rfl
    have hrest : ∀ (i : ℕ) r, (versionedRows rows created.tail deleted.tail)[i]? = some r →
        selected (i + 1) = q r := fun i r hr => h (i + 1) r hr
    rw [versionedRows, versionedRows, List.map_cons, ← ih hrest, VersionedRow.mark, ← hfirst]
    cases deleted with
    | nil => cases selected 0 <;> rfl
    | cons d deleted =>
      rw [List.mapIdx_cons]
      cases selected 0 <;> rfl

namespace TableData

variable (snapshot : Option ℕ) (table : TableData)

def versioned : List VersionedRow :=
  versionedRows table.rows table.rowCreatedVersion table.rowDeletedVersion

/-- The rows that are seen, each with whether its deletion can be recorded. -/
def seen : List (Row × Bool) :=
  table.versioned.filterMap (VersionedRow.seen snapshot)

def chooses (predicate : Option RowPredicate) (row : Row) : Bool :=
  match predicate with
  | none => true
  | some p => p row table.columns

/-- Whether an operation is for a row with its versions. -/
def choosesVersioned (predicate : Option RowPredicate) (r : VersionedRow) : Bool :=
  r.isVisible snapshot && table.chooses predicate r.row

/-- Whether a row that is deleted at a version is no longer seen. -/
def hides (snapshot : Option ℕ) (version : ℕ) : Bool :=
  version != 0 && snapshot.all fun snap => version ≤ snap

variable {snapshot} {table}

theorem selects_eq {predicate : Option RowPredicate} {i : ℕ} {r : VersionedRow}
    (hr : table.versioned[i]? = some r) :
    table.selects snapshot predicate i = table.choosesVersioned snapshot predicate r := by
  rw [versioned, getElem?_versionedRows] at hr
  obtain ⟨row, hrow, rfl⟩ := Option.map_eq_some_iff.1 hr
  unfold selects
  rw [hrow, choosesVersioned, isRowVisible, VersionedRow.isVisible,
    List.getD_eq_getElem?_getD (l := table.rowDeletedVersion)]
  cases predicate <;> rfl

theorem versioned_markDeleted (predicate : Option RowPredicate) (version : ℕ) :
    (table.markDeleted snapshot predicate version).1.versioned =
      table.versioned.map
        (VersionedRow.mark (table.choosesVersioned snapshot predicate) version) :=
  versionedRows_mapIdx version fun _ _ hr => selects_eq hr

/-! ## Compaction -/

theorem compactLoop_created_nil (rows : List Row) (deleted : List ℕ) :
    (compactLoop rows [] deleted).2.1 = [] := by
  induction rows generalizing deleted with
  | nil => rfl
  | cons row rows ih =>
    rw [compactLoop]
    split_ifs
    · exact ih _
    · exact ih _

theorem compactLoop_deleted_nil (rows : List Row) (created : List ℕ) :
    (compactLoop rows created []).2.2 = [] := by
  induction rows generalizing created with
  | nil => rfl
  | cons row rows ih =>
    rw [compactLoop]
    split_ifs
    · exact ih _
    · exact ih _

/-- Compaction removes the rows whose deletion is recorded, with their versions. -/
theorem versionedRows_compactLoop (rows : List Row) (created deleted : List ℕ) :
    versionedRows (compactLoop rows created deleted).1 (compactLoop rows created deleted).2.1
        (compactLoop rows created deleted).2.2 =
      (versionedRows rows created deleted).filter fun r => r.deleted.getD 0 == 0 := by
  induction rows generalizing created deleted with
  | nil => rfl
  | cons row rows ih =>
    have ih := ih created.tail deleted.tail
    rw [compactLoop, versionedRows]
    have hhead : deleted.headD 0 = deleted.head?.getD 0 := by cases deleted <;> rfl
    split_ifs with hgone
    · rw [ih, List.filter_cons_of_neg]
      rw [hhead] at hgone
      simpa using Nat.pos_iff_ne_zero.1 hgone
    · rw [List.filter_cons_of_pos, ← ih]
      · cases created with
        | nil =>
          rw [List.tail_nil, compactLoop_created_nil]
          cases deleted with
          | nil =>
            rw [List.tail_nil, compactLoop_deleted_nil]
            rfl
          | cons d deleted => rfl
        | cons c created =>
          cases deleted with
          | nil =>
            rw [List.tail_nil, compactLoop_deleted_nil]
            rfl
          | cons d deleted => rfl
      · rw [hhead] at hgone
        simpa using hgone

theorem versioned_compact :
    table.compact.versioned = table.versioned.filter fun r => r.deleted.getD 0 == 0 :=
  versionedRows_compactLoop _ _ _

/-! ## Deletion -/

theorem isVisible_version {created deleted : ℕ} (h : isVisible snapshot created deleted = true)
    (version : ℕ) : isVisible snapshot created version = !hides snapshot version := by
  cases snapshot with
  | none => simp [isVisible, hides, bne]
  | some snap =>
    simp only [isVisible, Bool.and_eq_true, decide_eq_true_eq] at h
    simp only [isVisible, hides, h.1, decide_true, Bool.true_and, Option.all_some, Bool.not_and,
      bne, Bool.not_not, ← decide_not, Nat.not_le]

/-- A marked row is seen unless its deletion is recorded at a version that hides it. -/
theorem seen_mark (predicate : Option RowPredicate) (version : ℕ) (r : VersionedRow) :
    (r.mark (table.choosesVersioned snapshot predicate) version).seen snapshot =
      (r.seen snapshot).filter fun e =>
        !(e.2 && hides snapshot version && table.chooses predicate e.1) := by
  obtain ⟨row, created, deleted⟩ := r
  by_cases hvisible : VersionedRow.isVisible snapshot ⟨row, created, deleted⟩ = true
  · have hseen : VersionedRow.seen snapshot ⟨row, created, deleted⟩ =
        some (row, deleted.isSome) := if_pos hvisible
    rw [hseen, Option.filter_some]
    by_cases hchosen : table.chooses predicate row = true
    · have hmark : table.choosesVersioned snapshot predicate ⟨row, created, deleted⟩ = true := by
        rw [choosesVersioned, hvisible, hchosen, Bool.and_self]
      rw [VersionedRow.mark, if_pos hmark, hchosen, Bool.and_true]
      cases deleted with
      | none => exact hseen
      | some d =>
        rw [Option.map_some, VersionedRow.seen, VersionedRow.isVisible, Option.getD_some,
          isVisible_version hvisible, Option.isSome_some, Option.isSome_some, Bool.true_and]
    · have hmark : ¬table.choosesVersioned snapshot predicate ⟨row, created, deleted⟩ = true := by
        rw [choosesVersioned, hvisible, Bool.true_and]
        exact hchosen
      rw [VersionedRow.mark, if_neg hmark, hseen, Bool.eq_false_of_not_eq_true hchosen,
        Bool.and_false, Bool.not_false, if_pos rfl]
  · have hmark : ¬table.choosesVersioned snapshot predicate ⟨row, created, deleted⟩ = true := by
      rw [choosesVersioned, Bool.and_eq_true]
      exact fun h => hvisible h.1
    rw [VersionedRow.mark, if_neg hmark, VersionedRow.seen, if_neg hvisible]
    rfl

/-- A deletion takes the rows that it selects and whose deletion can be recorded, if its version
hides what is deleted. -/
theorem seen_deleteRows (predicate : Option RowPredicate) (version : ℕ) :
    (table.deleteRows snapshot predicate version).1.seen snapshot =
      (table.seen snapshot).filter fun e =>
        !(e.2 && hides snapshot version && table.chooses predicate e.1) := by
  have hmarked : (table.markDeleted snapshot predicate version).1.seen snapshot =
      (table.seen snapshot).filter fun e =>
        !(e.2 && hides snapshot version && table.chooses predicate e.1) := by
    rw [seen, versioned_markDeleted, List.filterMap_map, seen, List.filter_filterMap]
    exact List.filterMap_congr fun r _ => seen_mark predicate version r
  rw [deleteRows]
  cases snapshot with
  | some snap => exact hmarked
  | none =>
    rw [← hmarked]
    change (TableData.compact _).seen none = _
    rw [seen, versioned_compact, List.filterMap_filter, seen]
    refine List.filterMap_congr fun r _ => ?_
    by_cases halive : (r.deleted.getD 0 == 0) = true
    · rw [if_pos halive]
    · rw [if_neg halive, VersionedRow.seen, if_neg]
      exact halive

end TableData

/-! ## Tables of a database -/

namespace ExecutionContext

variable (ctx : ExecutionContext)

def canLock (name : String) : Bool :=
  match ctx.tables.lookup name with
  | none => false
  | some shared => !shared.poisoned

variable {ctx}

theorem deleteRows_of_not_canLock {name : String} (h : ctx.canLock name = false)
    (predicate : Option RowPredicate) :
    ∃ e, ctx.deleteRows name predicate = (ctx, .error (.error e)) := by
  rw [canLock] at h
  cases hlookup : ctx.tables.lookup name with
  | none => exact ⟨.tableNotFound name, by simp only [deleteRows, lockTable, hlookup]⟩
  | some shared =>
    rw [hlookup] at h
    have hpoisoned : shared.poisoned = true := by simpa using h
    exact ⟨lockPoisoned, by simp only [deleteRows, lockTable, hlookup, hpoisoned, if_true]⟩

/-- Where the lock can be had the table is changed, and the others are left. -/
theorem deleteRows_of_canLock {name : String} (h : ctx.canLock name = true)
    (predicate : Option RowPredicate) : ∃ shared, ctx.tables.lookup name = some shared ∧
      shared.poisoned = false ∧
      ctx.deleteRows name predicate =
        ({ ctx with
            tables := ctx.tables.modify name fun _ =>
              ⟨(shared.data.deleteRows ctx.snapshotVersion predicate ctx.versionClock).1, false⟩ },
          .ok (shared.data.deleteRows ctx.snapshotVersion predicate ctx.versionClock).2) := by
  rw [canLock] at h
  cases hlookup : ctx.tables.lookup name with
  | none =>
    rw [hlookup] at h
    cases h
  | some shared =>
    rw [hlookup] at h
    have hpoisoned : shared.poisoned = false := by simpa using h
    refine ⟨shared, rfl, hpoisoned, ?_⟩
    simp only [deleteRows, lockTable, hlookup, hpoisoned, Bool.false_eq_true, if_false,
      unlockTable]

end ExecutionContext

end Query

end AegisDB
