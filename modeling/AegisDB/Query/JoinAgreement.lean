import AegisDB.Query.JoinOutput

/-!
# Hash join and nested loop

Two joins of the same inputs hand out the same rows exactly if rows that belong together are always
in the same bucket of the hash table and no batch of results fills where a hash join would lose the
rest of a left batch, or where an outer nested loop would forget that a partner was found.  For a
condition that does not set two columns equal there are no buckets at all.
-/

namespace AegisDB

namespace Query

/-! ## Where batches do not get in the way -/

/-- No batch fills while an outer join goes through the left rows: a left row stands for its
partners, or for one row if it has none. -/
def RowsFit (partners : Row → ℕ) : ℕ → List Row → Prop
  | _, [] => True
  | count, leftRow :: leftRows =>
      (partners leftRow = 0 ∨ count + partners leftRow < batchLimit) ∧
        RowsFit partners (count + max 1 (partners leftRow)) leftRows

/-- A batch fills at most with the last result of a left batch. -/
def BatchesFit (partners : Row → ℕ) : ℕ → List (List Row) → Prop
  | _, [] => True
  | count, batch :: left =>
      count + (batch.map partners).sum ≤ batchLimit ∧
        BatchesFit partners (if count + (batch.map partners).sum = batchLimit then 0
          else count + (batch.map partners).sum) left

theorem rowsFit_append {partners : Row → ℕ} {count : ℕ} {rows rows' : List Row} :
    RowsFit partners count (rows ++ rows') ↔ RowsFit partners count rows ∧
      RowsFit partners (count + (rows.map fun row => max 1 (partners row)).sum) rows' := by
  induction rows generalizing count with
  | nil => simp [RowsFit]
  | cons row rows ih =>
    simp only [List.cons_append, RowsFit, ih, List.map_cons, List.sum_cons, and_assoc,
      Nat.add_assoc]

/-! ## The two outputs -/

section Compare

variable {op : JoinOperator} {hop : HashJoinOperator} {sat : Row → Row → Bool} {right : List Row}

/-- The rows of a nested loop for one left row if batches did not matter. -/
def JoinOperator.rowOutput (op : JoinOperator) (sat : Row → Row → Bool) (right : List Row)
    (leftRow : Row) : List Row :=
  matchRows sat leftRow right ++ op.padding leftRow (!(matchRows sat leftRow right).isEmpty)

theorem JoinOperator.padding_true (leftRow : Row) : op.padding leftRow true = [] := by
  simp [padding, padUnmatched]

theorem JoinOperator.sublist_output (sat : Row → Row → Bool) (right : List Row) (count : ℕ)
    (leftRows : List Row) :
    (leftRows.flatMap (op.rowOutput sat right)).Sublist
      (op.output sat right count right leftRows) := by
  induction leftRows generalizing count with
  | nil => simp
  | cons leftRow leftRows ih =>
    rw [List.flatMap_cons, output]
    refine List.Sublist.append ?_ (ih _)
    unfold JoinOperator.rowOutput
    refine List.Sublist.append_left ?_ _
    cases hm : matchRows sat leftRow right with
    | nil => exact List.Sublist.refl _
    | cons row rows =>
      have hpad : op.padding leftRow (!(row :: rows).isEmpty) = [] := padding_true leftRow
      rw [hpad]
      exact List.nil_sublist _

theorem HashJoinOperator.probeOutput_sublist (sat : Row → Row → Bool) (count : ℕ)
    (leftRows : List Row) :
    (hop.probeOutput sat count leftRows).1.Sublist (leftRows.flatMap (hop.rowOutput sat)) := by
  induction leftRows generalizing count with
  | nil => simp [probeOutput]
  | cons leftRow leftRows ih =>
    rw [List.flatMap_cons, probeOutput]
    dsimp only
    split_ifs with h
    · exact List.Sublist.append_left (ih _) _
    · refine ((List.take_sublist _ _).trans ?_).trans (List.sublist_append_left _ _)
      exact List.sublist_append_left _ _

theorem HashJoinOperator.output_sublist (sat : Row → Row → Bool) (count : ℕ)
    (left : List (List Row)) :
    (hop.output sat count left).Sublist (left.flatten.flatMap (hop.rowOutput sat)) := by
  induction left generalizing count with
  | nil => simp [output]
  | cons batch left ih =>
    rw [List.flatten_cons, List.flatMap_append, output]
    exact (probeOutput_sublist sat count batch).append (ih _)

theorem JoinOperator.length_rowOutput (sat : Row → Row → Bool) (right : List Row)
    (hleft : op.joinType = .left) (leftRow : Row) :
    (op.rowOutput sat right leftRow).length = max 1 (matchRows sat leftRow right).length := by
  unfold rowOutput padding padUnmatched
  cases matchRows sat leftRow right <;> simp [hleft]

theorem HashJoinOperator.length_rowOutput (sat : Row → Row → Bool) (hleft : hop.joinType = .left)
    (leftRow : Row) :
    (hop.rowOutput sat leftRow).length =
      max 1 (matchRows sat leftRow (hop.candidates leftRow)).length := by
  unfold rowOutput padding padUnmatched
  cases matchRows sat leftRow (hop.candidates leftRow) <;> simp [hleft]

theorem JoinOperator.rowOutput_of_not_left (sat : Row → Row → Bool) (right : List Row)
    (hleft : op.joinType ≠ .left) (leftRow : Row) :
    op.rowOutput sat right leftRow = matchRows sat leftRow right := by
  simp [rowOutput, padding, padUnmatched, hleft]

theorem HashJoinOperator.rowOutput_of_not_left (sat : Row → Row → Bool)
    (hleft : hop.joinType ≠ .left) (leftRow : Row) :
    hop.rowOutput sat leftRow = matchRows sat leftRow (hop.candidates leftRow) := by
  simp [rowOutput, padding, padUnmatched, hleft]

/-- As long as no batch fills, the nested loop hands out just the rows for the left rows. -/
theorem JoinOperator.output_append_of_rowsFit {leftRows : List Row} (more : List Row)
    (hleft : op.joinType = .left) {count : ℕ}
    (hfits : RowsFit (fun l => (matchRows sat l right).length) count leftRows) :
    op.output sat right count right (leftRows ++ more) =
      leftRows.flatMap (op.rowOutput sat right) ++ op.output sat right
        (count + (leftRows.map fun l => max 1 (matchRows sat l right).length).sum) right more := by
  induction leftRows generalizing count with
  | nil => simp
  | cons leftRow leftRows ih =>
    obtain ⟨hrow, hrows⟩ := hfits
    have hlength := length_rowOutput sat right hleft leftRow
    have hstep : op.output sat right count right (leftRow :: (leftRows ++ more)) =
        op.rowOutput sat right leftRow ++ op.output sat right
          (count + (op.rowOutput sat right leftRow).length) right (leftRows ++ more) :=
      output_of_fits (by simpa using hrow)
    rw [List.cons_append, hstep, hlength, ih hrows, List.flatMap_cons, List.map_cons,
      List.sum_cons, List.append_assoc, Nat.add_assoc]

theorem JoinOperator.output_eq_of_rowsFit (hleft : op.joinType = .left) {count : ℕ}
    {leftRows : List Row}
    (hfits : RowsFit (fun l => (matchRows sat l right).length) count leftRows) :
    op.output sat right count right leftRows = leftRows.flatMap (op.rowOutput sat right) := by
  have happend := output_append_of_rowsFit [] hleft hfits
  rwa [List.append_nil, output, List.append_nil] at happend

/-- Where no batch fills with all partners, none fills with the candidates among them. -/
theorem HashJoinOperator.probeOutput_eq_of_rowsFit (hleft : hop.joinType = .left)
    (hcand : ∀ l, (matchRows sat l (hop.candidates l)).Sublist (matchRows sat l right))
    {count count' : ℕ} {leftRows : List Row} (hcount : count ≤ count')
    (hfits : RowsFit (fun l => (matchRows sat l right).length) count' leftRows) :
    hop.probeOutput sat count leftRows = (leftRows.flatMap (hop.rowOutput sat), false) := by
  induction leftRows generalizing count count' with
  | nil => rfl
  | cons leftRow leftRows ih =>
    obtain ⟨hrow, hrows⟩ := hfits
    dsimp only at hrow hrows
    have hle := (hcand leftRow).length_le
    have hfits' : matchRows sat leftRow (hop.candidates leftRow) = [] ∨
        count + (matchRows sat leftRow (hop.candidates leftRow)).length < batchLimit := by
      rcases hrow with hrow | hrow
      · left
        rw [hrow] at hle
        exact List.length_eq_zero_iff.mp (Nat.le_zero.mp hle)
      · right
        omega
    have hlength := length_rowOutput sat hleft leftRow
    have hle' : count + (hop.rowOutput sat leftRow).length ≤
        count' + max 1 (matchRows sat leftRow right).length := by omega
    have hih := ih hle' hrows
    simp only [probeOutput, if_pos hfits', hih, List.flatMap_cons]

theorem HashJoinOperator.output_eq_of_rowsFit (hleft : hop.joinType = .left)
    (hcand : ∀ l, (matchRows sat l (hop.candidates l)).Sublist (matchRows sat l right))
    {count count' : ℕ} {left : List (List Row)} (hcount : count ≤ count')
    (hfits : RowsFit (fun l => (matchRows sat l right).length) count' left.flatten) :
    hop.output sat count left = left.flatten.flatMap (hop.rowOutput sat) := by
  induction left generalizing count count' with
  | nil => rfl
  | cons batch left ih =>
    rw [List.flatten_cons, rowsFit_append] at hfits
    rw [List.flatten_cons, List.flatMap_append, output,
      probeOutput_eq_of_rowsFit hleft hcand hcount hfits.1]
    refine congrArg _ (ih ?_ hfits.2)
    have hsum : (batch.flatMap (hop.rowOutput sat)).length ≤
        (batch.map fun l => max 1 (matchRows sat l right).length).sum := by
      rw [List.length_flatMap]
      refine List.sum_le_sum fun l _ => ?_
      rw [length_rowOutput sat hleft l]
      have := (hcand l).length_le
      omega
    simp only [Bool.false_eq_true, if_false]
    omega

/-- If the two joins of a left batch hand out just the rows for its left rows, and as many of them,
then no batch of results has filled. -/
theorem rowsFit_of_length (hleft : op.joinType = .left) (hleft' : hop.joinType = .left)
    (hcand : ∀ l, (matchRows sat l (hop.candidates l)).Sublist (matchRows sat l right))
    {count : ℕ} {batch more : List Row}
    (hhash : (hop.probeOutput sat count batch).1.length =
      (batch.flatMap (hop.rowOutput sat)).length)
    (hnested : (op.output sat right count right (batch ++ more)).length =
      ((batch ++ more).flatMap (op.rowOutput sat right)).length)
    (hrows : ∀ l ∈ batch, (hop.rowOutput sat l).length = (op.rowOutput sat right l).length) :
    RowsFit (fun l => (matchRows sat l right).length) count batch := by
  induction batch generalizing count with
  | nil => trivial
  | cons leftRow batch ih =>
    obtain ⟨hrow, hbatch⟩ := List.forall_mem_cons.mp hrows
    have hrest := (op.sublist_output sat right
      ((tally count (matchRows sat leftRow right).length).1 + (op.padding leftRow
        (tally count (matchRows sat leftRow right).length).2).length) (batch ++ more)).length_le
    have hlenNested := op.length_rowOutput sat right hleft leftRow
    have hlenHash := hop.length_rowOutput sat hleft' leftRow
    have hle := (hcand leftRow).length_le
    have hfits : (matchRows sat leftRow right).length = 0 ∨
        count + (matchRows sat leftRow right).length < batchLimit := by
      by_contra hnot
      rw [not_or, Nat.not_lt] at hnot
      -- the nested loop has found the last partner after the batch was full
      have htally : (tally count (matchRows sat leftRow right).length).2 = true := by
        by_contra hfalse
        rw [Bool.not_eq_true] at hfalse
        simp only [List.cons_append, JoinOperator.output, List.flatMap_cons, List.length_append,
          hfalse] at hnested hrest
        have hpad : (op.padding leftRow false).length = 1 := by
          simp [JoinOperator.padding, padUnmatched, hleft]
        omega
      rw [tally, if_neg (by omega)] at htally
      have hlost : roomLeft count < (matchRows sat leftRow right).length := by
        by_contra hroom
        rw [Nat.sub_eq_zero_of_le (Nat.le_of_not_lt hroom)] at htally
        simp at htally
      -- and the hash join has lost it
      have hroom : 1 ≤ roomLeft count := Nat.le_max_left _ _
      have hsame : (matchRows sat leftRow (hop.candidates leftRow)).length =
          (matchRows sat leftRow right).length := by omega
      have hne : ¬(matchRows sat leftRow (hop.candidates leftRow) = [] ∨ count +
          (matchRows sat leftRow (hop.candidates leftRow)).length < batchLimit) := by
        rw [← List.length_eq_zero_iff]
        omega
      simp only [HashJoinOperator.probeOutput, if_neg hne, List.flatMap_cons, List.length_append,
        List.length_take] at hhash
      omega
    have hfits' : matchRows sat leftRow (hop.candidates leftRow) = [] ∨
        count + (matchRows sat leftRow (hop.candidates leftRow)).length < batchLimit := by
      rw [← List.length_eq_zero_iff]
      omega
    refine ⟨hfits, ih ?_ ?_ hbatch⟩
    · simp only [HashJoinOperator.probeOutput, if_pos hfits', List.flatMap_cons,
        List.length_append] at hhash
      rw [show count + max 1 (matchRows sat leftRow right).length =
        count + (hop.rowOutput sat leftRow).length by omega]
      omega
    · rw [List.cons_append, JoinOperator.output_of_fits (by simpa using hfits),
        List.flatMap_cons] at hnested
      have hlen : (matchRows sat leftRow right).length + (op.padding leftRow
          (!(matchRows sat leftRow right).isEmpty)).length =
          max 1 (matchRows sat leftRow right).length := by
        rw [← hlenNested, JoinOperator.rowOutput, List.length_append]
      simp only [List.length_append, hlen, hlenNested] at hnested
      dsimp only
      omega

theorem rowsFit_of_length_output (hleft : op.joinType = .left) (hleft' : hop.joinType = .left)
    (hcand : ∀ l, (matchRows sat l (hop.candidates l)).Sublist (matchRows sat l right))
    {count : ℕ} {left : List (List Row)}
    (hhash : (hop.output sat count left).length =
      (left.flatten.flatMap (hop.rowOutput sat)).length)
    (hnested : (op.output sat right count right left.flatten).length =
      (left.flatten.flatMap (op.rowOutput sat right)).length)
    (hrows : ∀ l ∈ left.flatten,
      (hop.rowOutput sat l).length = (op.rowOutput sat right l).length) :
    RowsFit (fun l => (matchRows sat l right).length) count left.flatten := by
  induction left generalizing count with
  | nil => trivial
  | cons batch left ih =>
    rw [List.flatten_cons] at hnested hrows ⊢
    rw [List.flatten_cons, List.flatMap_append, List.length_append, HashJoinOperator.output,
      List.length_append] at hhash
    have hprobe := (hop.probeOutput_sublist sat count batch).length_le
    have hbatch := fun l hl => hrows l (List.mem_append_left _ hl)
    have hrest := (hop.output_sublist sat (if (hop.probeOutput sat count batch).2 then 0
      else count + (hop.probeOutput sat count batch).1.length) left).length_le
    have hfits : RowsFit (fun l => (matchRows sat l right).length) count batch :=
      rowsFit_of_length hleft hleft' hcand (by omega) hnested hbatch
    have heq := HashJoinOperator.probeOutput_eq_of_rowsFit hleft' hcand (Nat.le_refl count) hfits
    have hsum : (batch.flatMap (hop.rowOutput sat)).length =
        (batch.map fun l => max 1 (matchRows sat l right).length).sum := by
      rw [List.length_flatMap]
      refine congrArg List.sum (List.map_congr_left fun l hl => ?_)
      rw [hbatch l hl, op.length_rowOutput sat right hleft]
    rw [rowsFit_append]
    refine ⟨hfits, ih ?_ ?_ fun l hl => hrows l (List.mem_append_right _ hl)⟩
    · rw [heq, hsum] at hhash
      simp only [Bool.false_eq_true, if_false] at hhash
      omega
    · have hsplit : op.output sat right count right (batch ++ left.flatten) =
          batch.flatMap (op.rowOutput sat right) ++ op.output sat right
            (count + (batch.map fun l => max 1 (matchRows sat l right).length).sum) right
            left.flatten := JoinOperator.output_append_of_rowsFit _ hleft hfits
      rw [hsplit, List.flatMap_append, List.length_append, List.length_append] at hnested
      omega

theorem JoinOperator.output_of_not_left (hleft : op.joinType ≠ .left) (count : ℕ)
    (leftRows : List Row) :
    op.output sat right count right leftRows = leftRows.flatMap (op.rowOutput sat right) := by
  induction leftRows generalizing count with
  | nil => rfl
  | cons leftRow leftRows ih =>
    have hpad : ∀ matched, op.padding leftRow matched = [] := by
      simp [padding, padUnmatched, hleft]
    rw [output, hpad, ih, List.flatMap_cons, rowOutput, hpad]

/-- An inner join goes through a left batch until a batch of results is full. -/
theorem HashJoinOperator.probeOutput_of_not_left (hleft : hop.joinType ≠ .left) {count : ℕ}
    (hcount : count < batchLimit) (leftRows : List Row) :
    hop.probeOutput sat count leftRows =
      if count + (leftRows.flatMap (hop.rowOutput sat)).length < batchLimit then
        (leftRows.flatMap (hop.rowOutput sat), false)
      else ((leftRows.flatMap (hop.rowOutput sat)).take (batchLimit - count), true) := by
  induction leftRows generalizing count with
  | nil => simp [probeOutput, hcount]
  | cons leftRow leftRows ih =>
    have hrow := rowOutput_of_not_left sat hleft leftRow
    rw [List.flatMap_cons, List.length_append, probeOutput, hrow]
    dsimp only
    by_cases hfits : matchRows sat leftRow (hop.candidates leftRow) = [] ∨
        count + (matchRows sat leftRow (hop.candidates leftRow)).length < batchLimit
    · have hlt : count + (matchRows sat leftRow (hop.candidates leftRow)).length < batchLimit := by
        rcases hfits with hnil | hlt
        · rw [hnil]
          exact hcount
        · exact hlt
      rw [if_pos hfits, ih hlt, ← Nat.add_assoc]
      split_ifs with hrest
      · rfl
      · have htake : (matchRows sat leftRow (hop.candidates leftRow)).take (batchLimit - count) =
            matchRows sat leftRow (hop.candidates leftRow) := List.take_of_length_le (by omega)
        rw [List.take_append, htake, Nat.sub_sub]
    · rw [if_neg hfits, if_neg (by omega)]
      have hroom : roomLeft count = batchLimit - count := by
        unfold roomLeft
        omega
      rw [not_or, Nat.not_lt] at hfits
      rw [hroom, List.take_append_of_le_length (by omega)]

/-- An inner join loses nothing exactly if batches fill at most with the last result of a left
batch. -/
theorem HashJoinOperator.length_output_iff (sat : Row → Row → Bool)
    (hleft : hop.joinType ≠ .left) {count : ℕ} (hcount : count < batchLimit)
    (left : List (List Row)) :
    (hop.output sat count left).length = (left.flatten.flatMap (hop.rowOutput sat)).length ↔
      BatchesFit (fun l => (hop.rowOutput sat l).length) count left := by
  induction left generalizing count with
  | nil => simp [output, BatchesFit]
  | cons batch left ih =>
    have hsum : (batch.map fun l => (hop.rowOutput sat l).length).sum =
        (batch.flatMap (hop.rowOutput sat)).length := List.length_flatMap.symm
    rw [List.flatten_cons, List.flatMap_append, List.length_append, output, List.length_append,
      BatchesFit, hsum, probeOutput_of_not_left hleft hcount]
    by_cases hlt : count + (batch.flatMap (hop.rowOutput sat)).length < batchLimit
    · simp only [if_pos hlt, Bool.false_eq_true, if_false, if_neg (Nat.ne_of_lt hlt), ← ih hlt]
      omega
    · have hzero : 0 < batchLimit := by decide
      have hle := (hop.output_sublist sat 0 left).length_le
      simp only [if_neg hlt, if_true, List.length_take]
      constructor
      · intro h
        have heq : count + (batch.flatMap (hop.rowOutput sat)).length = batchLimit := by omega
        rw [if_pos heq, ← ih hzero]
        omega
      · rintro ⟨hle', hrest⟩
        have heq : count + (batch.flatMap (hop.rowOutput sat)).length = batchLimit := by omega
        rw [if_pos heq, ← ih hzero] at hrest
        omega

end Compare

/-! ## When the joins agree -/

section Inputs

variable (left right : Source) (joinType : PlanJoinType) (condition : Option PlanExpression)

def joinSatisfied (l r : Row) : Bool :=
  decide (evaluateJoinCondition condition (left.columns ++ right.columns) l r = .ok true)

/-- The condition sets two columns equal, and the values there have the same text. -/
def sameBucket (l r : Row) : Bool :=
  match HashJoinOperator.extractKeyIndices condition left.columns right.columns with
  | (some i, some j) => decide ((l.getD i .null).debug = (r.getD j .null).debug)
  | _ => false

/-- The number of right rows that belong to a left row. -/
def partners (l : Row) : ℕ :=
  (right.rows.filter (joinSatisfied left right condition l)).length

/-- The pairs that belong together without being in the same bucket. -/
def separatedPairs : List Row :=
  left.rows.flatMap fun l => (right.rows.filter fun r =>
    joinSatisfied left right condition l r && !sameBucket left right condition l r).map (l ++ ·)

/-- The rows of an outer join for the left rows all of whose partners are in other buckets. -/
def separatedRows : List Row :=
  if joinType = .left then
    (left.rows.filter fun l => right.rows.any (joinSatisfied left right condition l) &&
        !right.rows.any fun r => joinSatisfied left right condition l r &&
          sameBucket left right condition l r).map
      (· ++ List.replicate right.columns.length .null)
  else []

/-- Neither buckets nor batches get in the way of a hash join. -/
structure HashJoinSafe : Prop where
  supported : rejectUnsupportedJoinType joinType = .ok ()
  evaluates : ∀ l ∈ left.rows, ∀ r ∈ right.rows,
    Evaluated (evaluateJoinCondition condition (left.columns ++ right.columns)) l r
  /-- Rows that belong together are in the same bucket; in an outer join a row of NULLs that is the
  only partner may as well be missed. -/
  buckets : (separatedPairs left right condition).Perm
    (separatedRows left right joinType condition)
  /-- No batch fills in the midst of a left batch, and in an outer join none at all. -/
  batches : if joinType = .left then RowsFit (partners left right condition) 0 left.rows
    else BatchesFit (partners left right condition) 0 left.batches

/-- Both joins come to their ends, and with the same columns and the same rows. -/
def JoinsAgree : Prop :=
  ∃ (op : JoinOperator) (c : JoinCursor) (hop : HashJoinOperator) (hc : HashJoinCursor),
    JoinOperator.new left right joinType condition = .ok (op, c) ∧
    HashJoinOperator.new left right joinType condition = .ok (hop, hc) ∧
    op.columns = hop.columns ∧
    ∃ rows rows', Produces op.nextBatch c rows ∧ Produces hop.nextBatch hc rows' ∧
      rows.Perm rows'

/-! ### Rows in other buckets -/

/-- The right rows that a left row is compared with are those in its bucket. -/
theorem candidates_eq {hop : HashJoinOperator} {hc : HashJoinCursor}
    (hnew : HashJoinOperator.new left right joinType condition = .ok (hop, hc)) (l : Row) :
    hop.candidates l = right.rows.filter (sameBucket left right condition l) := by
  unfold HashJoinOperator.new at hnew
  cases hreject : rejectUnsupportedJoinType joinType with
  | error e =>
    rw [hreject] at hnew
    simp [bind, Except.bind] at hnew
  | ok u =>
    rw [hreject] at hnew
    simp only [bind, Except.bind, pure, Except.pure, Except.ok.injEq, Prod.mk.injEq] at hnew
    obtain ⟨rfl, -⟩ := hnew
    unfold HashJoinOperator.candidates
    have hkeys : HashJoinOperator.extractKeyIndices condition left.columns right.columns =
        (none, none) ∨ ∃ i j, HashJoinOperator.extractKeyIndices condition left.columns
          right.columns = (some i, some j) := by
      unfold HashJoinOperator.extractKeyIndices
      split
      · split
        · split
          · exact Or.inr ⟨_, _, rfl⟩
          · split
            · exact Or.inr ⟨_, _, rfl⟩
            · exact Or.inl rfl
        · exact Or.inl rfl
      · exact Or.inl rfl
    rcases hkeys with hkeys | ⟨i, j, hkeys⟩
    · simp [hkeys, sameBucket]
    · simp only [hkeys, Option.isSome_some, if_true, HashJoinOperator.lookup_buildTable]
      refine List.filter_congr fun r _ => ?_
      simp [sameBucket, hkeys, HashJoinOperator.hashKey, eq_comm]

variable {left right joinType condition}

theorem isEmpty_matchRows (sat : Row → Row → Bool) (l : Row) (rows : List Row) :
    (matchRows sat l rows).isEmpty = !rows.any (sat l) := by
  induction rows with
  | nil => rfl
  | cons r rows ih =>
    cases h : sat l r with
    | true => simp [matchRows_cons_of_sat h, h]
    | false => rw [matchRows_cons_of_not_sat h, ih, List.any_cons, h, Bool.false_or]

/-- What a hash join has for a left row, and what it misses, is what there is for it. -/
theorem perm_rowOutput {op : JoinOperator} {hop : HashJoinOperator} {l : Row}
    (htype : op.joinType = joinType) (htype' : hop.joinType = joinType)
    (hcount : op.rightColCount = right.columns.length)
    (hcount' : hop.rightColumns.length = right.columns.length)
    (hcand : hop.candidates l = right.rows.filter (sameBucket left right condition l)) :
    (hop.rowOutput (joinSatisfied left right condition) l ++
        (right.rows.filter fun r => joinSatisfied left right condition l r &&
          !sameBucket left right condition l r).map (l ++ ·)).Perm
      (op.rowOutput (joinSatisfied left right condition) right.rows l ++
        if joinType = .left ∧ (right.rows.any (joinSatisfied left right condition l) &&
            !right.rows.any fun r => joinSatisfied left right condition l r &&
              sameBucket left right condition l r) = true then
          [l ++ List.replicate right.columns.length .null] else []) := by
  set sat := joinSatisfied left right condition
  set bucket := sameBucket left right condition
  have hmatch : matchRows sat l (right.rows.filter (bucket l)) =
      matchRows (fun l r => sat l r && bucket l r) l right.rows := by
    rw [matchRows, List.filter_filter]
    rfl
  have hperm : (matchRows (fun l r => sat l r && bucket l r) l right.rows ++
      (right.rows.filter fun r => sat l r && !bucket l r).map (l ++ ·)).Perm
      (matchRows sat l right.rows) := by
    have hfilter := (List.filter_append_perm (bucket l) (right.rows.filter (sat l))).map (l ++ ·)
    rw [List.map_append, List.filter_filter, List.filter_filter] at hfilter
    simp only [Bool.and_comm] at hfilter
    exact hfilter
  have hany := isEmpty_matchRows sat l right.rows
  have hany' := isEmpty_matchRows (fun l r => sat l r && bucket l r) l right.rows
  unfold JoinOperator.rowOutput HashJoinOperator.rowOutput JoinOperator.padding
    HashJoinOperator.padding padUnmatched
  rw [hcand, hmatch, htype, htype', hcount, hcount']
  revert hperm hany hany'
  generalize matchRows sat l right.rows = all
  generalize matchRows (fun l r => sat l r && bucket l r) l right.rows = found
  generalize (right.rows.filter fun r => sat l r && !bucket l r).map (l ++ ·) = missed
  generalize right.rows.any (sat l) = some
  generalize (right.rows.any fun r => sat l r && bucket l r) = near
  intro hperm hany hany'
  by_cases hleft : joinType = .left
  · cases found with
    | nil =>
      rw [List.nil_append] at hperm
      cases all with
      | nil =>
        obtain rfl : missed = [] := hperm.eq_nil
        simp_all
      | cons row rows =>
        have hpad : ([l ++ List.replicate right.columns.length Value.null] ++ missed).Perm
            ((row :: rows) ++ [l ++ List.replicate right.columns.length Value.null]) :=
          (hperm.append_left _).trans List.perm_append_comm
        simp_all
    | cons row rows =>
      cases all with
      | nil => simp at hperm
      | cons row' rows' => simp_all
  · simpa [hleft] using hperm

theorem matchRows_sublist {hop : HashJoinOperator} (sat : Row → Row → Bool) (l : Row)
    (hcand : hop.candidates l = right.rows.filter (sameBucket left right condition l)) :
    (matchRows sat l (hop.candidates l)).Sublist (matchRows sat l right.rows) := by
  rw [hcand]
  exact (List.filter_sublist.filter _).map _

theorem separatedRows_eq : separatedRows left right joinType condition =
    left.rows.flatMap fun l =>
      if joinType = .left ∧ (right.rows.any (joinSatisfied left right condition l) &&
          !right.rows.any fun r => joinSatisfied left right condition l r &&
            sameBucket left right condition l r) = true then
        [l ++ List.replicate right.columns.length .null] else [] := by
  unfold separatedRows
  by_cases hleft : joinType = .left
  · rw [if_pos hleft]
    induction left.rows with
    | nil => rfl
    | cons l rows ih =>
      rw [List.flatMap_cons, ← ih, List.filter_cons]
      split_ifs with h h' h'
      · rfl
      · exact absurd ⟨hleft, h⟩ h'
      · exact absurd h'.2 h
      · rfl
  · simp [hleft]

theorem perm_flatMap_rowOutput {op : JoinOperator} {hop : HashJoinOperator}
    (htype : op.joinType = joinType) (htype' : hop.joinType = joinType)
    (hcount : op.rightColCount = right.columns.length)
    (hcount' : hop.rightColumns.length = right.columns.length)
    (hcand : ∀ l, hop.candidates l = right.rows.filter (sameBucket left right condition l)) :
    (left.rows.flatMap (hop.rowOutput (joinSatisfied left right condition)) ++
        separatedPairs left right condition).Perm
      (left.rows.flatMap (op.rowOutput (joinSatisfied left right condition) right.rows) ++
        separatedRows left right joinType condition) := by
  rw [separatedRows_eq, separatedPairs]
  refine (List.flatMap_append_perm _ _ _).trans
    (List.Perm.trans ?_ (List.flatMap_append_perm _ _ _).symm)
  exact List.Perm.flatMap_left _ fun l _ => perm_rowOutput htype htype' hcount hcount' (hcand l)

theorem batchesFit_congr {f g : Row → ℕ} {count : ℕ} {batches : List (List Row)}
    (h : ∀ l ∈ batches.flatten, f l = g l) :
    BatchesFit f count batches ↔ BatchesFit g count batches := by
  induction batches generalizing count with
  | nil => exact Iff.rfl
  | cons batch batches ih =>
    rw [List.flatten_cons] at h
    have hbatch : batch.map f = batch.map g :=
      List.map_congr_left fun l hl => h l (List.mem_append_left _ hl)
    rw [BatchesFit, BatchesFit, hbatch, ih fun l hl => h l (List.mem_append_right _ hl)]

variable (left right condition) in
theorem new_spec (hsupported : rejectUnsupportedJoinType joinType = .ok ()) :
    ∃ (op : JoinOperator) (c : JoinCursor) (hop : HashJoinOperator) (hc : HashJoinCursor),
      JoinOperator.new left right joinType condition = .ok (op, c) ∧
      HashJoinOperator.new left right joinType condition = .ok (hop, hc) ∧
      op.columns = hop.columns ∧ op.joinType = joinType ∧ hop.joinType = joinType ∧
      op.condition = condition ∧ op.columns = left.columns ++ right.columns ∧
      op.rightColCount = right.columns.length ∧ hop.rightColumns.length = right.columns.length ∧
      op.right = right.batches ∧ c = ⟨left.batches, none, none, []⟩ ∧
      hop.condition = condition ∧ hc = ⟨left.batches, false⟩ := by
  unfold JoinOperator.new HashJoinOperator.new
  rw [hsupported]
  exact ⟨_, _, _, _, rfl, rfl, rfl, rfl, rfl, rfl, rfl, rfl, rfl, rfl, rfl, rfl, rfl⟩

end Inputs

section Agreement

variable {left right : Source} {joinType : PlanJoinType} {condition : Option PlanExpression}

theorem joinSatisfied_of_evaluated {l r : Row}
    (h : Evaluated (evaluateJoinCondition condition (left.columns ++ right.columns)) l r) :
    evaluateJoinCondition condition (left.columns ++ right.columns) l r =
      .ok (joinSatisfied left right condition l r) := by
  obtain ⟨b, hb⟩ := h
  cases b <;> simp [joinSatisfied, hb]

/-- What the two joins hand out, as functions of their inputs. -/
theorem produces_output (hsupported : rejectUnsupportedJoinType joinType = .ok ())
    (hev : ∀ l ∈ left.rows, ∀ r ∈ right.rows,
      Evaluated (evaluateJoinCondition condition (left.columns ++ right.columns)) l r) :
    ∃ (op : JoinOperator) (c : JoinCursor) (hop : HashJoinOperator) (hc : HashJoinCursor),
      JoinOperator.new left right joinType condition = .ok (op, c) ∧
      HashJoinOperator.new left right joinType condition = .ok (hop, hc) ∧
      op.columns = hop.columns ∧ op.joinType = joinType ∧ hop.joinType = joinType ∧
      op.rightColCount = right.columns.length ∧ hop.rightColumns.length = right.columns.length ∧
      Produces op.nextBatch c
        (op.output (joinSatisfied left right condition) right.rows 0 right.rows left.rows) ∧
      Produces hop.nextBatch hc
        (hop.output (joinSatisfied left right condition) 0 left.batches) := by
  obtain ⟨op, c, hop, hc, hnew, hnew', hcolumns, htype, htype', hcond, hcols, hcount, hcount',
    hright, hcursor, hcond', hcursor'⟩ := new_spec left right condition hsupported
  have hrows : op.right.flatten = right.rows := by rw [hright, Source.rows]
  refine ⟨op, c, hop, hc, hnew, hnew', hcolumns, htype, htype', hcount, hcount', ?_, ?_⟩
  · have hok : JoinOperator.Evaluates (evaluateJoinCondition op.condition op.columns)
        (joinSatisfied left right condition) (JoinOperator.cursorRows c) op.right.flatten := by
      intro l hl r hr
      rw [hcond, hcols]
      rw [hcursor] at hl
      exact joinSatisfied_of_evaluated (hev l hl r (hrows ▸ hr))
    have hproduces := JoinOperator.produces_cursorOutput hok
      ⟨by rw [hcursor]; rfl, by rw [hcursor]; exact List.nil_suffix, by rw [hcursor]; simp⟩
    rw [hrows, hcursor] at hproduces
    rw [hcursor]
    exact hproduces
  · have hok : hop.Evaluates (joinSatisfied left right condition) hc.left.flatten := by
      intro l hl r hr
      rw [hcond', ← hcolumns, hcols]
      rw [hcursor'] at hl
      rw [candidates_eq left right joinType condition hnew'] at hr
      exact joinSatisfied_of_evaluated (hev l hl r (List.mem_filter.mp hr).1)
    have hproduces := HashJoinOperator.produces_cursorOutput hok
    rw [hcursor'] at hproduces ⊢
    exact hproduces

theorem partners_eq : partners left right condition =
    fun l => (matchRows (joinSatisfied left right condition) l right.rows).length := by
  funext l
  simp [partners, matchRows]

theorem eq_of_sum_eq {f g : Row → ℕ} {rows : List Row} (hle : ∀ l ∈ rows, f l ≤ g l)
    (hsum : (rows.map f).sum = (rows.map g).sum) : ∀ l ∈ rows, f l = g l := by
  intro l hl
  by_contra hne
  have hlt := List.sum_lt_sum f g hle ⟨l, hl, Nat.lt_of_le_of_ne (hle l hl) hne⟩
  omega

theorem length_rowOutput_le {op : JoinOperator} {hop : HashJoinOperator} (l : Row)
    (htype : op.joinType = joinType) (htype' : hop.joinType = joinType)
    (hcand : hop.candidates l = right.rows.filter (sameBucket left right condition l)) :
    (hop.rowOutput (joinSatisfied left right condition) l).length ≤
      (op.rowOutput (joinSatisfied left right condition) right.rows l).length := by
  have hsub := (matchRows_sublist (joinSatisfied left right condition) l hcand).length_le
  by_cases hleft : joinType = .left
  · rw [hop.length_rowOutput _ (htype'.trans hleft), op.length_rowOutput _ _ (htype.trans hleft)]
    omega
  · rw [hop.rowOutput_of_not_left _ (by rwa [htype']),
      op.rowOutput_of_not_left _ _ (by rwa [htype])]
    exact hsub

/-- An operator that has produced its rows has compared all pairs. -/
theorem evaluated_of_produces_new
    (hsupported : rejectUnsupportedJoinType joinType = .ok ()) {op : JoinOperator} {c : JoinCursor}
    (hnew : JoinOperator.new left right joinType condition = .ok (op, c)) {rows : List Row}
    (hrows : Produces op.nextBatch c rows) : ∀ l ∈ left.rows, ∀ r ∈ right.rows,
      Evaluated (evaluateJoinCondition condition (left.columns ++ right.columns)) l r := by
  intro l hl r hr
  obtain ⟨op', c', -, -, hnew', -, -, -, -, hcond, hcols, -, -, hright, hcursor, -, -⟩ :=
    new_spec left right condition hsupported
  obtain ⟨rfl, rfl⟩ := Prod.mk.inj (Except.ok.inj (hnew.symm.trans hnew'))
  have hpending : JoinOperator.CursorPending op.right.flatten c l r := by
    rw [hcursor, hright]
    exact Or.inr ⟨hl, hr⟩
  have hread : c.rightData.getD op.right.flatten = op.right.flatten := by
    rw [hcursor]
    rfl
  have hevaluated := JoinOperator.evaluated_of_produces hrows hread hpending
  rwa [hcond, hcols] at hevaluated

theorem supported_of_new {op : JoinOperator} {c : JoinCursor}
    (hnew : JoinOperator.new left right joinType condition = .ok (op, c)) :
    rejectUnsupportedJoinType joinType = .ok () := by
  rw [JoinOperator.new] at hnew
  cases hreject : rejectUnsupportedJoinType joinType with
  | ok u => rfl
  | error e =>
    rw [hreject] at hnew
    cases hnew

/-- The two joins agree exactly if neither buckets nor batches get in the way of the hash join. -/
theorem joinsAgree_iff (left right : Source) (joinType : PlanJoinType)
    (condition : Option PlanExpression) :
    JoinsAgree left right joinType condition ↔ HashJoinSafe left right joinType condition := by
  constructor
  · rintro ⟨op, c, hop, hc, hnew, hnew', -, rows, rows', hrows, hrows', hperm⟩
    have hsupported := supported_of_new hnew
    have hev := evaluated_of_produces_new hsupported hnew hrows
    obtain ⟨op₁, c₁, hop₁, hc₁, hnew₁, hnew₁', -, htype, htype', hcount, hcount', hproduces,
      hproduces'⟩ := produces_output hsupported hev
    rw [hnew] at hnew₁
    cases hnew₁
    rw [hnew'] at hnew₁'
    cases hnew₁'
    rw [hrows.unique hproduces, hrows'.unique hproduces'] at hperm
    have hcand := candidates_eq left right joinType condition hnew'
    have hlength := hperm.length_eq
    have hnested := op.sublist_output (joinSatisfied left right condition) right.rows 0 left.rows
    have hhash := hop.output_sublist (joinSatisfied left right condition) 0 left.batches
    have hle := fun l (_ : l ∈ left.rows) =>
      length_rowOutput_le l htype htype' (hcand l)
    have hsumle := List.sum_le_sum hle
    rw [← List.length_flatMap, ← List.length_flatMap] at hsumle
    have h1 := hnested.length_le
    have h2 := hhash.length_le
    rw [← Source.rows] at h2
    have hhashEq := hhash.eq_of_length (by rw [← Source.rows]; omega)
    have hnestedEq := hnested.eq_of_length (by omega)
    have hrowsEq := eq_of_sum_eq hle (by
      rw [← List.length_flatMap, ← List.length_flatMap]
      omega)
    have hall := perm_flatMap_rowOutput htype htype' hcount hcount' hcand
    have hbuckets : (separatedPairs left right condition).Perm
        (separatedRows left right joinType condition) := by
      rw [hhashEq, ← hnestedEq, ← Source.rows] at hperm
      exact (List.perm_append_left_iff _).mp (hall.trans (hperm.append_right _))
    refine ⟨hsupported, hev, hbuckets, ?_⟩
    split_ifs with hleft
    · have hfits := rowsFit_of_length_output (htype.trans hleft) (htype'.trans hleft)
        (fun l => matchRows_sublist (joinSatisfied left right condition) l (hcand l))
        (congrArg List.length hhashEq) (congrArg List.length hnestedEq).symm hrowsEq
      rw [← partners_eq] at hfits
      exact hfits
    · have hfits := (hop.length_output_iff _ (by rwa [htype']) (by decide) left.batches).mp
        (congrArg List.length hhashEq)
      refine (batchesFit_congr fun l hl => ?_).mp hfits
      rw [hrowsEq l hl, op.rowOutput_of_not_left _ _ (by rwa [htype]), partners_eq]
  · rintro ⟨hsupported, hev, hbuckets, hbatches⟩
    obtain ⟨op, c, hop, hc, hnew, hnew', hcolumns, htype, htype', hcount, hcount', hproduces,
      hproduces'⟩ := produces_output hsupported hev
    have hcand := candidates_eq left right joinType condition hnew'
    have hall := perm_flatMap_rowOutput htype htype' hcount hcount' hcand
    have hperm : (left.rows.flatMap (hop.rowOutput (joinSatisfied left right condition))).Perm
        (left.rows.flatMap (op.rowOutput (joinSatisfied left right condition) right.rows)) :=
      (List.perm_append_right_iff _).mp (hall.trans (hbuckets.symm.append_left _))
    refine ⟨op, c, hop, hc, hnew, hnew', hcolumns, _, _, hproduces, hproduces', ?_⟩
    split_ifs at hbatches with hleft
    · rw [partners_eq] at hbatches
      rw [op.output_eq_of_rowsFit (htype.trans hleft) hbatches,
        hop.output_eq_of_rowsFit (htype'.trans hleft)
          (fun l => matchRows_sublist _ l (hcand l)) (Nat.le_refl 0) hbatches]
      exact hperm.symm
    · have hnil : separatedPairs left right condition = [] := by
        have hrows : separatedRows left right joinType condition = [] := if_neg hleft
        rw [hrows] at hbuckets
        exact hbuckets.eq_nil
      have hlen : ∀ l ∈ left.rows, (hop.rowOutput (joinSatisfied left right condition) l).length =
          partners left right condition l := by
        have hle := fun l (_ : l ∈ left.rows) =>
          length_rowOutput_le l htype htype' (hcand l)
        have heq := eq_of_sum_eq hle (by
          rw [← List.length_flatMap, ← List.length_flatMap]
          exact hperm.length_eq)
        intro l hl
        rw [heq l hl, op.rowOutput_of_not_left _ _ (by rwa [htype]), partners_eq]
      have hfits := (hop.length_output_iff (joinSatisfied left right condition) (by rwa [htype'])
        (by decide) left.batches).mpr ((batchesFit_congr hlen).mpr hbatches)
      rw [op.output_of_not_left (by rwa [htype]), (hop.output_sublist _ 0 left.batches).eq_of_length
        hfits]
      exact hperm.symm

/-- On `x < y` there is no key, and the hash join compares no rows at all. -/
theorem not_joinsAgree :
    ¬∀ (left right : Source) (joinType : PlanJoinType) (condition : Option PlanExpression),
      rejectUnsupportedJoinType joinType = .ok () →
        JoinsAgree left right joinType condition := by
  intro h
  obtain ⟨op, c, hop, hc, hnew, hnew', -, rows, rows', hrows, hrows', hperm⟩ :=
    h ⟨["x"], [[[.integer 1]]]⟩ ⟨["y"], [[[.integer 2]]]⟩ .inner
      (some (.binaryOp (.column "x") .lessThan (.column "y"))) rfl
  cases hnew
  cases hnew'
  have hfirst : JoinOperator.nextBatch ⟨.inner,
      some (.binaryOp (.column "x") .lessThan (.column "y")), ["x", "y"], 1, [[[.integer 2]]]⟩
      ⟨[[[.integer 1]]], none, none, []⟩ =
      .ok (some [[.integer 1, .integer 2]],
        ⟨[], some [[.integer 2]], none, [[.integer 2]]⟩) := by decide +kernel
  have hlast : JoinOperator.nextBatch ⟨.inner,
      some (.binaryOp (.column "x") .lessThan (.column "y")), ["x", "y"], 1, [[[.integer 2]]]⟩
      ⟨[], some [[.integer 2]], none, [[.integer 2]]⟩ =
      .ok (none, ⟨[], some [[.integer 2]], none, [[.integer 2]]⟩) := by decide +kernel
  have hnested : rows = [[.integer 1, .integer 2]] := hrows.unique (.batch hfirst (.done hlast))
  have hnone : HashJoinOperator.nextBatch ⟨.inner,
      some (.binaryOp (.column "x") .lessThan (.column "y")), ["x", "y"], ["y"],
      HashJoinOperator.buildTable none [[.integer 2]], none⟩ ⟨[[[.integer 1]]], false⟩ =
      .ok (none, ⟨[], true⟩) := by decide +kernel
  have hhash : rows' = [] := hrows'.unique (.done hnone)
  rw [hnested, hhash] at hperm
  simp at hperm

end Agreement

end Query

end AegisDB
