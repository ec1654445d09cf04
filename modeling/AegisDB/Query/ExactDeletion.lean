import AegisDB.Query.RowDeletion

/-!
# When a deletion is exact

A deletion that succeeds should take just the visible rows that match, count them, and leave a pair of
versions for each row.  It does so where the versions of the table already fit its rows: a row without
a place for its deletion is counted and stays.
-/

namespace AegisDB

namespace Query

namespace TableData

variable {snapshot : Option ℕ} {table after : TableData} {predicate : Option RowPredicate}
  {version n : ℕ}

variable (snapshot) (table) in
/-- A deletion takes the visible rows that match and counts them; the other rows stay, as do all rows
in a transaction, and each row has its versions. -/
structure DeletesExactly (predicate : Option RowPredicate) (after : TableData) (n : ℕ) : Prop where
  count : n = (table.visibleRows snapshot).countP (table.chooses predicate)
  visible : after.visibleRows snapshot =
    (table.visibleRows snapshot).filter fun row => !table.chooses predicate row
  stays : snapshot.isSome = true → after.rows = table.rows
  created : after.rowCreatedVersion.length = after.rows.length
  deleted : after.rowDeletedVersion.length = after.rows.length

variable (snapshot) (table) in
/-- Each row has a version of its deletion, and one of its creation unless it is removed, because it
was deleted before or matches, and what is deleted now is hidden if a visible row matches. -/
structure Deletable (predicate : Option RowPredicate) (version : ℕ) : Prop where
  deleted : table.rowDeletedVersion.length = table.rows.length
  created_le : table.rowCreatedVersion.length ≤ table.rows.length
  created : ∀ i, table.rowCreatedVersion.length ≤ i → i < table.rows.length →
    snapshot = none ∧ (0 < table.rowDeletedVersion.getD i 0 ∨
      0 < version ∧ ∀ row ∈ table.rows[i]?, table.chooses predicate row = true)
  hidden : hides snapshot version = true ∨
    ∀ row ∈ table.visibleRows snapshot, table.chooses predicate row = false

/-! ## Visible rows -/

theorem map_fst_filterMap_seen {rows : List Row} {created deleted : List ℕ} {k : ℕ} {p : ℕ → Bool}
    (hp : ∀ i, p (k + i) = isVisible snapshot (created.getD i 0) (deleted.getD i 0)) :
    ((rows.zipIdx k).filter fun e => p e.2).map Prod.fst =
      ((versionedRows rows created deleted).filterMap (VersionedRow.seen snapshot)).map
        Prod.fst := by
  induction rows generalizing created deleted k with
  | nil => rfl
  | cons row rows ih =>
    have hfirst : p k = VersionedRow.isVisible snapshot
        ⟨row, created.headD 0, deleted.head?⟩ := by
      refine (hp 0).trans ?_
      cases created <;> cases deleted <;> rfl
    have htail : ∀ i, p (k + 1 + i) =
        isVisible snapshot (created.tail.getD i 0) (deleted.tail.getD i 0) := by
      intro i
      rw [Nat.add_assoc, Nat.add_comm 1 i, hp]
      cases created <;> cases deleted <;> rfl
    rw [List.zipIdx_cons, versionedRows, List.filter_cons, List.filterMap_cons,
      VersionedRow.seen, hfirst]
    split_ifs
    · exact congrArg _ (ih htail)
    · exact ih htail

/-- The visible rows are those that are seen. -/
theorem visibleRows_eq : table.visibleRows snapshot = (table.seen snapshot).map Prod.fst :=
  map_fst_filterMap_seen fun i => by rw [Nat.zero_add]; rfl

/-- What is counted by position is counted in the list. -/
theorem length_filter_range {l : List VersionedRow} {p : ℕ → Bool} {q : VersionedRow → Bool}
    (h : ∀ (i : ℕ) r, l[i]? = some r → p i = q r) :
    ((List.range l.length).filter p).length = l.countP q := by
  induction l using List.reverseRecOn with
  | nil => rfl
  | append_singleton l r ih =>
    have hlast := h l.length r List.getElem?_concat_length
    have hinit : ∀ (i : ℕ) r', l[i]? = some r' → p i = q r' := by
      intro i r' hr
      refine h i r' ?_
      rw [List.getElem?_append_left (List.getElem?_eq_some_iff.mp hr).1, hr]
    rw [List.length_append, List.length_singleton, List.range_succ, List.filter_append,
      List.length_append, ih hinit, List.countP_append, List.countP_singleton,
      List.filter_singleton, hlast]
    cases q r <;> rfl

theorem length_versionedRows (rows : List Row) (created deleted : List ℕ) :
    (versionedRows rows created deleted).length = rows.length := by
  induction rows generalizing created deleted with
  | nil => rfl
  | cons row rows ih => rw [versionedRows, List.length_cons, List.length_cons, ih]

variable (version) in
/-- A deletion counts the visible rows that match. -/
theorem markDeleted_snd : (table.markDeleted snapshot predicate version).2 =
    (table.visibleRows snapshot).countP (table.chooses predicate) := by
  have hlength : table.versioned.length = table.rows.length := length_versionedRows _ _ _
  rw [markDeleted, ← hlength]
  dsimp only
  rw [length_filter_range fun i r hr => selects_eq hr, visibleRows_eq, List.countP_map, seen,
    List.countP_filterMap]
  refine List.countP_congr fun r _ => ?_
  rw [choosesVersioned, VersionedRow.seen]
  cases r.isVisible snapshot
  · rfl
  · rw [Bool.true_and, if_pos rfl]
    rfl

/-! ## Compaction -/

theorem length_compactLoop_deleted (rows : List Row) (created deleted : List ℕ) :
    (compactLoop rows created deleted).2.2.length + rows.length =
      (compactLoop rows created deleted).1.length + deleted.length := by
  induction rows generalizing created deleted with
  | nil => exact (Nat.zero_add _).symm
  | cons row rows ih =>
    have ih := ih created.tail deleted.tail
    rw [compactLoop]
    cases deleted with
    | nil =>
      simp only [compactLoop_deleted_nil, List.tail_nil, List.headD_nil, lt_irrefl, if_false,
        List.take_nil, List.nil_append, List.length_cons, List.length_nil] at ih ⊢
      omega
    | cons d deleted =>
      split_ifs
      · simp only [List.length_cons, List.tail_cons] at ih ⊢
        omega
      · simp only [List.length_cons, List.tail_cons, List.take_succ_cons, List.take_zero,
          List.length_append, List.length_nil] at ih ⊢
        omega

theorem length_compactLoop_created_iff (rows : List Row) (created deleted : List ℕ) :
    (compactLoop rows created deleted).2.1.length = (compactLoop rows created deleted).1.length ↔
      created.length ≤ rows.length ∧
        ∀ i, created.length ≤ i → i < rows.length → 0 < deleted.getD i 0 := by
  induction rows generalizing created deleted with
  | nil =>
    rw [compactLoop]
    dsimp only
    rw [List.length_nil, Nat.le_zero]
    exact (and_iff_left fun i _ hi => absurd hi (Nat.not_lt_zero i)).symm
  | cons row rows ih =>
    have ih := ih created.tail deleted.tail
    have htail : ∀ i, deleted.tail.getD i 0 = deleted.getD (i + 1) 0 := by
      intro i
      cases deleted <;> rfl
    have hhead : deleted.headD 0 = deleted.getD 0 0 := by
      cases deleted <;> rfl
    simp only [htail] at ih
    rw [compactLoop, hhead]
    cases created with
    | nil =>
      split_ifs with hgone
      · rw [List.tail_nil] at ih ⊢
        rw [ih]
        refine and_congr (iff_of_true (Nat.zero_le _) (Nat.zero_le _))
          ⟨fun h i _ hi => ?_, fun h i _ hi => ?_⟩
        · cases i with
          | zero => exact hgone
          | succ i => exact h i (Nat.zero_le i) (Nat.lt_of_succ_lt_succ hi)
        · exact h (i + 1) (Nat.zero_le _) (Nat.succ_lt_succ hi)
      · -- the row stays, without a version of its creation
        rw [List.tail_nil, compactLoop_created_nil]
        exact iff_of_false (fun h => (Nat.succ_ne_zero _ h.symm)) fun h =>
          hgone (h.2 0 le_rfl (Nat.succ_pos _))
    | cons c created =>
      have hshift : (∀ i, created.length ≤ i → i < rows.length → 0 < deleted.getD (i + 1) 0) ↔
          ∀ i, (c :: created).length ≤ i → i < (row :: rows).length → 0 < deleted.getD i 0 := by
        constructor
        · intro h i hle hi
          cases i with
          | zero => exact absurd hle (Nat.not_succ_le_zero _)
          | succ i => exact h i (Nat.le_of_succ_le_succ hle) (Nat.lt_of_succ_lt_succ hi)
        · exact fun h i hle hi => h (i + 1) (Nat.succ_le_succ hle) (Nat.succ_lt_succ hi)
      rw [← hshift, List.length_cons, List.length_cons, Nat.succ_le_succ_iff]
      rw [List.tail_cons] at ih ⊢
      split_ifs
      · exact ih
      · rw [← ih]
        exact Nat.succ_inj

/-- A row is marked just if it was before, or it matches. -/
theorem marked_pos_iff (hlength : table.rowDeletedVersion.length = table.rows.length) {i : ℕ}
    (hi : i < table.rows.length) :
    0 < (table.markDeleted none predicate version).1.rowDeletedVersion.getD i 0 ↔
      0 < table.rowDeletedVersion.getD i 0 ∨
        0 < version ∧ ∀ row ∈ table.rows[i]?, table.chooses predicate row = true := by
  have hd : i < table.rowDeletedVersion.length := hlength ▸ hi
  have hmark : (table.markDeleted none predicate version).1.rowDeletedVersion.getD i 0 =
      if table.selects none predicate i then version else table.rowDeletedVersion[i] := by
    simp [markDeleted, List.getD_eq_getElem?_getD, hd]
  have hget : table.rowDeletedVersion.getD i 0 = table.rowDeletedVersion[i] := by
    simp [List.getD_eq_getElem?_getD, hd]
  have hselects : table.selects none predicate i = true ↔ table.rowDeletedVersion[i] = 0 ∧
      ∀ row ∈ table.rows[i]?, table.chooses predicate row = true := by
    unfold selects isRowVisible
    rw [hget, Bool.and_eq_true]
    refine and_congr (by simp [isVisible]) ?_
    obtain ⟨row, hrow⟩ : ∃ row, table.rows[i]? = some row := ⟨_, List.getElem?_eq_getElem hi⟩
    rw [hrow]
    cases predicate with
    | none => exact iff_of_true rfl fun _ _ => rfl
    | some p => exact ⟨fun h _ heq => Option.some.inj heq ▸ h, fun h => h row rfl⟩
  rw [hmark, hget]
  split_ifs with hselected
  · obtain ⟨hzero, hchosen⟩ := hselects.mp hselected
    rw [hzero]
    exact ⟨fun h => .inr ⟨h, hchosen⟩, fun h => (h.resolve_left (lt_irrefl 0)).1⟩
  · refine (or_iff_left_of_imp ?_).symm
    rintro ⟨-, hchosen⟩
    exact Nat.pos_of_ne_zero fun hzero => hselected (hselects.mpr ⟨hzero, hchosen⟩)

/-- The versions fit the rows after a deletion just if each row had a version of its deletion, and one
of its creation unless it is removed. -/
theorem length_deleteRows_iff :
    ((table.deleteRows snapshot predicate version).1.rowCreatedVersion.length =
        (table.deleteRows snapshot predicate version).1.rows.length ∧
      (table.deleteRows snapshot predicate version).1.rowDeletedVersion.length =
        (table.deleteRows snapshot predicate version).1.rows.length) ↔
    table.rowDeletedVersion.length = table.rows.length ∧
      table.rowCreatedVersion.length ≤ table.rows.length ∧
      ∀ i, table.rowCreatedVersion.length ≤ i → i < table.rows.length → snapshot = none ∧
        (0 < table.rowDeletedVersion.getD i 0 ∨
          0 < version ∧ ∀ row ∈ table.rows[i]?, table.chooses predicate row = true) := by
  have hmark : (table.markDeleted snapshot predicate version).1.rowDeletedVersion.length =
      table.rowDeletedVersion.length := List.length_mapIdx
  cases snapshot with
  | some snap =>
    change (table.rowCreatedVersion.length = table.rows.length ∧
      (table.markDeleted (some snap) predicate version).1.rowDeletedVersion.length =
        table.rows.length) ↔ _
    rw [hmark]
    constructor
    · exact fun h => ⟨h.2, h.1.le, fun i hle hi => absurd hi (by omega)⟩
    · rintro ⟨hdeleted, hle, hall⟩
      refine ⟨hle.antisymm (not_lt.mp fun hlt => ?_), hdeleted⟩
      cases (hall _ le_rfl hlt).1
  | none =>
    have hpos (hlength : table.rowDeletedVersion.length = table.rows.length) {i : ℕ}
        (hi : i < table.rows.length) :
        0 < (table.markDeleted none predicate version).1.rowDeletedVersion.getD i 0 ↔
          0 < table.rowDeletedVersion.getD i 0 ∨
            0 < version ∧ ∀ row ∈ table.rows[i]?, table.chooses predicate row = true :=
      table.marked_pos_iff hlength hi
    generalize hmarked : (table.markDeleted none predicate version).1.rowDeletedVersion = marked
      at hmark hpos ⊢
    have hlength := length_compactLoop_deleted table.rows table.rowCreatedVersion marked
    have hdone : (table.deleteRows none predicate version).1 =
        { table with
          rows := (compactLoop table.rows table.rowCreatedVersion marked).1
          rowCreatedVersion := (compactLoop table.rows table.rowCreatedVersion marked).2.1
          rowDeletedVersion := (compactLoop table.rows table.rowCreatedVersion marked).2.2 } := by
      rw [← hmarked]
      rfl
    rw [hdone]
    dsimp only
    rw [length_compactLoop_created_iff, and_comm]
    refine Iff.trans ?_ (and_congr_right fun hlength => and_congr_right fun _ =>
      forall₃_congr fun i _ hi => and_congr_right fun _ => hpos hlength hi)
    refine and_congr (by omega) (and_congr_right_iff.mpr fun _ => ?_)
    exact forall₃_congr fun i _ _ => (and_iff_right rfl).symm

/-! ## Exactness -/

/-- With a version of its deletion for each row, what is seen can be deleted. -/
theorem recorded_of_length (h : table.rowDeletedVersion.length = table.rows.length) :
    ∀ e ∈ table.seen snapshot, e.2 = true := by
  intro e he
  obtain ⟨r, hr, hseen⟩ := List.mem_filterMap.mp he
  rw [VersionedRow.seen] at hseen
  split_ifs at hseen
  obtain rfl := Option.some.inj hseen
  obtain ⟨i, hi⟩ := List.mem_iff_getElem?.mp hr
  rw [versioned, getElem?_versionedRows] at hi
  obtain ⟨row, hrow, rfl⟩ := Option.map_eq_some_iff.mp hi
  have hlt := (List.getElem?_eq_some_iff.mp hrow).1
  rw [List.getElem?_eq_getElem (h ▸ hlt), Option.isSome_some]

/-- A deletion is exact just if the versions fit the rows and hide what is deleted. -/
theorem deletesExactly_iff : table.DeletesExactly snapshot predicate
    (table.deleteRows snapshot predicate version).1
      (table.deleteRows snapshot predicate version).2 ↔
    table.Deletable snapshot predicate version := by
  have hseen : (table.deleteRows snapshot predicate version).1.visibleRows snapshot =
      ((table.seen snapshot).filter fun e =>
        !(e.2 && hides snapshot version && table.chooses predicate e.1)).map Prod.fst := by
    rw [visibleRows_eq, seen_deleteRows]
  have hcount : (table.deleteRows snapshot predicate version).2 =
      (table.visibleRows snapshot).countP (table.chooses predicate) :=
    markDeleted_snd version
  have hstays : snapshot.isSome = true →
      (table.deleteRows snapshot predicate version).1.rows = table.rows := by
    intro hsome
    cases snapshot with
    | none => cases hsome
    | some snap => rfl
  -- once all deletions can be recorded, the rows that match go if they are hidden
  have hvisible (h : table.rowDeletedVersion.length = table.rows.length) :
      (table.deleteRows snapshot predicate version).1.visibleRows snapshot =
        (table.visibleRows snapshot).filter fun row =>
          !(hides snapshot version && table.chooses predicate row) := by
    rw [hseen, visibleRows_eq, List.filter_map]
    refine congrArg _ (List.filter_congr fun e he => ?_)
    rw [recorded_of_length h e he, Bool.true_and]
    rfl
  constructor
  · intro h
    obtain ⟨hdeleted, hle, hcreated⟩ := length_deleteRows_iff.mp ⟨h.created, h.deleted⟩
    refine ⟨hdeleted, hle, hcreated, or_iff_not_imp_left.mpr fun hhides row hrow => ?_⟩
    have hsame := h.visible
    rw [hvisible hdeleted, Bool.eq_false_of_not_eq_true hhides] at hsame
    simp only [Bool.false_and, Bool.not_false, List.filter_true] at hsame
    simpa using List.filter_eq_self.mp hsame.symm row hrow
  · intro h
    obtain ⟨hcreated, hdeleted⟩ := length_deleteRows_iff.mpr ⟨h.deleted, h.created_le, h.created⟩
    refine ⟨hcount, ?_, hstays, hcreated, hdeleted⟩
    rw [hvisible h.deleted]
    refine List.filter_congr fun row hrow => ?_
    rcases h.hidden with hhides | hnone
    · rw [hhides, Bool.true_and]
    · rw [hnone row hrow, Bool.and_false]

end TableData

namespace ExecutionContext

/-- A deletion is exact in its table and leaves the other tables. -/
def DeletesExactly (ctx ctx' : ExecutionContext) (name : String) (predicate : Option RowPredicate)
    (n : ℕ) : Prop :=
  (∀ other ≠ name, ctx'.tables.lookup other = ctx.tables.lookup other) ∧
    ∃ shared shared', ctx.tables.lookup name = some shared ∧
      ctx'.tables.lookup name = some shared' ∧
      shared.data.DeletesExactly ctx.snapshotVersion predicate shared'.data n

/-- A deletion that succeeds is exact just if the versions of its table fit the rows and hide what is
deleted. -/
theorem deleteRows_exact_iff {ctx ctx' : ExecutionContext} {name : String}
    {predicate : Option RowPredicate} {n : ℕ} (h : ctx.deleteRows name predicate = (ctx', .ok n)) :
    ctx.DeletesExactly ctx' name predicate n ↔ ∃ shared, ctx.tables.lookup name = some shared ∧
      shared.data.Deletable ctx.snapshotVersion predicate ctx.versionClock := by
  have hlock : ctx.canLock name = true := by
    by_contra hno
    obtain ⟨e, he⟩ := deleteRows_of_not_canLock (Bool.eq_false_of_not_eq_true hno) predicate
    rw [he] at h
    cases h
  obtain ⟨shared, hlookup, -, hdone⟩ := deleteRows_of_canLock hlock predicate
  obtain ⟨rfl, hn⟩ := Prod.mk.inj (hdone.symm.trans h)
  obtain rfl := Except.ok.inj hn
  have hothers : ∀ other ≠ name, (ctx.tables.modify name fun _ =>
      ⟨(shared.data.deleteRows ctx.snapshotVersion predicate ctx.versionClock).1,
        false⟩).lookup other = ctx.tables.lookup other := by
    intro other hne
    rw [Table.lookup_modify, if_neg hne]
  have hself : (ctx.tables.modify name fun _ =>
      ⟨(shared.data.deleteRows ctx.snapshotVersion predicate ctx.versionClock).1,
        false⟩).lookup name = some
          ⟨(shared.data.deleteRows ctx.snapshotVersion predicate ctx.versionClock).1, false⟩ := by
    rw [Table.lookup_modify, if_pos rfl, hlookup, Option.map_some]
  constructor
  · rintro ⟨-, shared₁, shared₂, hlookup₁, hlookup₂, hexact⟩
    obtain rfl := Option.some.inj (hlookup.symm.trans hlookup₁)
    obtain rfl := Option.some.inj (hself.symm.trans hlookup₂)
    exact ⟨shared, hlookup, TableData.deletesExactly_iff.mp hexact⟩
  · rintro ⟨shared₁, hlookup₁, hdeletable⟩
    obtain rfl := Option.some.inj (hlookup.symm.trans hlookup₁)
    exact ⟨hothers, shared, _, hlookup, hself, TableData.deletesExactly_iff.mpr hdeletable⟩

/-- A context with a table of two rows and these versions of their deletion. -/
def ofTwoRows (deleted : List ℕ) : ExecutionContext :=
  { ExecutionContext.new with
    tables := (∅ : Table String SharedTable).insert "t"
      ⟨⟨"t", ["n"], [[.integer 1], [.integer 2]], [0, 0], deleted⟩, false⟩ }

def isTwo : RowPredicate :=
  fun row _ => row == [.integer 2]

/-- The second of two rows is deleted. -/
theorem deleteRows_exact_iff_twoRows : (ofTwoRows [0, 0]).DeletesExactly
    ((ofTwoRows [0, 0]).deleteRows "t" (some isTwo)).1 "t" (some isTwo) 1 :=
  (deleteRows_exact_iff rfl).mpr
    ⟨_, rfl, rfl, le_rfl, fun _ hle hi => absurd hi (not_lt.mpr hle), Or.inl rfl⟩

/-- A table that was loaded without versions keeps the row that is counted as deleted. -/
theorem not_deleteRows_exact : ¬ ∀ (ctx ctx' : ExecutionContext) (name : String)
    (predicate : Option RowPredicate) (n : ℕ), ctx.deleteRows name predicate = (ctx', .ok n) →
      ctx.DeletesExactly ctx' name predicate n := by
  intro h
  obtain ⟨-, shared, shared', hlookup, hlookup', hexact⟩ :=
    h (ofTwoRows []) _ "t" (some isTwo) 1 rfl
  obtain rfl := Option.some.inj hlookup
  obtain rfl := Option.some.inj hlookup'
  exact absurd hexact.visible (by decide)

end ExecutionContext

end Query

end AegisDB
