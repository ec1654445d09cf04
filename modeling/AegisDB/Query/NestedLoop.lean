import AegisDB.Query.JoinAgreement

/-!
# The nested loop and the join it computes

A nested loop hands out, in order, the pairs that belong together, and in an outer join a row of
NULLs for a left row without a partner.  It forgets between two batches that a partner was found, so
it takes a left row for unmatched if a batch fills with the last partner of that row.
-/

namespace AegisDB

namespace Query

section Reference

variable (left right : Source) (joinType : PlanJoinType) (condition : Option PlanExpression)

/-- The join by its definition: every pair of rows that satisfies the condition, and in an outer
join every left row that is in none of them, with NULLs. -/
def referenceJoin : List Row :=
  left.rows.flatMap fun l =>
    match right.rows.filter (joinSatisfied left right condition l) with
    | [] => if joinType = .left then [l ++ List.replicate right.columns.length .null] else []
    | matching => matching.map (l ++ ·)

/-- The condition has a value on every pair of rows. -/
def ConditionEvaluates : Prop :=
  ∀ l ∈ left.rows, ∀ r ∈ right.rows,
    Evaluated (evaluateJoinCondition condition (left.columns ++ right.columns)) l r

/-- The batches of a nested loop are together the join; if the condition fails on some pair of rows,
the nested loop does. -/
def NestedLoopJoins : Prop :=
  ∃ (op : JoinOperator) (c : JoinCursor),
    JoinOperator.new left right joinType condition = .ok (op, c) ∧
    op.columns = left.columns ++ right.columns ∧
    ∀ rows, Produces op.nextBatch c rows ↔
      ConditionEvaluates left right condition ∧ rows = referenceJoin left right joinType condition

/-- No batch fills with the last partner of a left row.  The batch has so many rows before the first
left row is looked at; a left row without partners adds one. -/
def PartnersFit (partners : Row → ℕ) : ℕ → List Row → Prop
  | _, [] => True
  | count, leftRow :: leftRows =>
      (partners leftRow ≠ 0 → (tally count (partners leftRow)).2 = true) ∧
        PartnersFit partners ((tally count (partners leftRow)).1 +
          if partners leftRow = 0 then 1 else 0) leftRows

end Reference

section Output

variable {op : JoinOperator} {sat : Row → Row → Bool} {right : List Row}

theorem JoinOperator.length_padding_false (hleft : op.joinType = .left) (leftRow : Row) :
    (op.padding leftRow false).length = 1 := by
  rw [padding, padUnmatched, hleft]
  rfl

/-- In an outer join, the nested loop hands out just the join exactly if no batch fills with the
last partner of a left row. -/
theorem JoinOperator.output_eq_iff (hleft : op.joinType = .left) (count : ℕ)
    (leftRows : List Row) :
    op.output sat right count right leftRows = leftRows.flatMap (op.rowOutput sat right) ↔
      PartnersFit (fun l => (matchRows sat l right).length) count leftRows := by
  induction leftRows generalizing count with
  | nil => exact iff_of_true rfl trivial
  | cons leftRow leftRows ih =>
    rw [output, List.flatMap_cons, rowOutput, PartnersFit]
    cases hmatch : matchRows sat leftRow right with
    | nil =>
      have htally : tally count 0 = (count, false) := tally_of_fits count 0 (Or.inl rfl)
      have hpad : (op.padding leftRow false).length = 1 := length_padding_false hleft leftRow
      rw [List.length_nil, htally, List.isEmpty_nil, Bool.not_true, hpad, if_pos rfl,
        List.append_cancel_left_eq, ih]
      exact (and_iff_right fun h => absurd rfl h).symm
    | cons row rows =>
      have hne : (row :: rows).length ≠ 0 := Nat.succ_ne_zero _
      rw [List.isEmpty_cons, Bool.not_false, padding_true, List.append_nil, if_neg hne,
        Nat.add_zero]
      cases htally : (tally count (row :: rows).length).2 with
      | true =>
        rw [padding_true, List.append_nil, List.length_nil, Nat.add_zero,
          List.append_cancel_left_eq, ih]
        exact (and_iff_right fun _ => rfl).symm
      | false =>
        -- a row of NULLs is handed out that is not in the join
        refine iff_of_false (fun heq => ?_) fun h => Bool.false_ne_true (h.1 hne)
        have hrest := (op.sublist_output sat right ((tally count (row :: rows).length).1 +
          (op.padding leftRow false).length) leftRows).length_le
        have hlength := congrArg List.length heq
        rw [List.length_append, List.length_append, List.length_append,
          length_padding_false hleft] at hlength
        rw [length_padding_false hleft] at hrest
        omega

end Output

section Joins

variable {left right : Source} {joinType : PlanJoinType} {condition : Option PlanExpression}

theorem referenceJoin_eq {op : JoinOperator} (htype : op.joinType = joinType)
    (hcount : op.rightColCount = right.columns.length) :
    referenceJoin left right joinType condition =
      left.rows.flatMap (op.rowOutput (joinSatisfied left right condition) right.rows) := by
  refine List.flatMap_congr fun l _ => ?_
  rw [JoinOperator.rowOutput, matchRows]
  cases hmatching : right.rows.filter (joinSatisfied left right condition l) with
  | nil =>
    rw [JoinOperator.padding, padUnmatched, htype, hcount]
    by_cases hleft : joinType = .left <;> simp [hleft]
  | cons r matching =>
    rw [List.map_cons, List.isEmpty_cons, Bool.not_false, JoinOperator.padding_true,
      List.append_nil]
    rfl

theorem output_eq_referenceJoin_iff {op : JoinOperator} (htype : op.joinType = joinType)
    (hcount : op.rightColCount = right.columns.length) :
    op.output (joinSatisfied left right condition) right.rows 0 right.rows left.rows =
        referenceJoin left right joinType condition ↔
      (joinType = .left → PartnersFit (partners left right condition) 0 left.rows) := by
  rw [referenceJoin_eq htype hcount]
  by_cases hleft : joinType = .left
  · rw [JoinOperator.output_eq_iff (htype.trans hleft), ← partners_eq]
    exact ⟨fun h _ => h, fun h => h hleft⟩
  · exact iff_of_true (JoinOperator.output_of_not_left (fun h => hleft (htype.symm.trans h)) 0 _)
      fun h => absurd h hleft

theorem produces_iff (hsupported : rejectUnsupportedJoinType joinType = .ok ()) :
    ∃ (op : JoinOperator) (c : JoinCursor),
      JoinOperator.new left right joinType condition = .ok (op, c) ∧
      op.columns = left.columns ++ right.columns ∧ op.joinType = joinType ∧
      op.rightColCount = right.columns.length ∧
      ∀ rows, Produces op.nextBatch c rows ↔ ConditionEvaluates left right condition ∧
        rows = op.output (joinSatisfied left right condition) right.rows 0 right.rows
          left.rows := by
  obtain ⟨op, c, -, -, hnew, -, -, htype, -, -, hcols, hcount, -, -, -, -, -⟩ :=
    new_spec left right condition hsupported
  have hproduces (hev : ConditionEvaluates left right condition) : Produces op.nextBatch c
      (op.output (joinSatisfied left right condition) right.rows 0 right.rows left.rows) := by
    obtain ⟨op', c', -, -, hnew', -, -, -, -, -, -, hproduces, -⟩ :=
      produces_output hsupported hev
    obtain ⟨rfl, rfl⟩ := Prod.mk.inj (Except.ok.inj (hnew.symm.trans hnew'))
    exact hproduces
  refine ⟨op, c, hnew, hcols, htype, hcount, fun rows => ⟨fun hrows => ?_, ?_⟩⟩
  · have hev := evaluated_of_produces_new hsupported hnew hrows
    exact ⟨hev, hrows.unique (hproduces hev)⟩
  · rintro ⟨hev, rfl⟩
    exact hproduces hev

/-- The nested loop computes the join exactly if there is an implementation for the type of join,
and no batch of an outer join fills with the last partner of a left row. -/
theorem nestedLoopJoins_iff (left right : Source) (joinType : PlanJoinType)
    (condition : Option PlanExpression) :
    NestedLoopJoins left right joinType condition ↔
      rejectUnsupportedJoinType joinType = .ok () ∧
        (ConditionEvaluates left right condition → joinType = .left →
          PartnersFit (partners left right condition) 0 left.rows) := by
  constructor
  · rintro ⟨op, c, hnew, -, hall⟩
    have hsupported := supported_of_new hnew
    obtain ⟨op', c', hnew', -, htype, hcount, hiff⟩ := produces_iff hsupported
    obtain ⟨rfl, rfl⟩ := Prod.mk.inj (Except.ok.inj (hnew.symm.trans hnew'))
    refine ⟨hsupported, fun hev => ?_⟩
    exact (output_eq_referenceJoin_iff htype hcount).mp
      ((hall _).mp ((hiff _).mpr ⟨hev, rfl⟩)).2
  · rintro ⟨hsupported, hfit⟩
    obtain ⟨op, c, hnew, hcols, htype, hcount, hiff⟩ := produces_iff hsupported
    refine ⟨op, c, hnew, hcols, fun rows => (hiff rows).trans ?_⟩
    refine and_congr_right fun hev => ?_
    rw [(output_eq_referenceJoin_iff htype hcount).mpr (hfit hev)]

/-- A left row with 1024 partners fills a batch, and is handed out once more with a NULL. -/
theorem not_nestedLoopJoins :
    ¬∀ (left right : Source) (joinType : PlanJoinType) (condition : Option PlanExpression),
      joinType = .inner ∨ joinType = .left → NestedLoopJoins left right joinType condition := by
  intro h
  obtain ⟨op, c, hnew, -, hall⟩ := h ⟨["x"], [[[.integer 1]]]⟩
    ⟨["y"], [List.replicate 1024 [.integer 2]]⟩ .left none (Or.inr rfl)
  obtain ⟨op', c', hnew', -, htype, hcount, hiff⟩ := produces_iff (supported_of_new hnew)
  obtain ⟨rfl, rfl⟩ := Prod.mk.inj (Except.ok.inj (hnew.symm.trans hnew'))
  have hrows := ((hall _).mp ((hiff _).mpr ⟨fun _ _ _ _ => ⟨true, rfl⟩, rfl⟩)).2
  obtain ⟨hfull, -⟩ := (output_eq_referenceJoin_iff htype hcount).mp hrows rfl
  have hpartners : partners ⟨["x"], [[[.integer 1]]]⟩
      ⟨["y"], [List.replicate 1024 [.integer 2]]⟩ none [.integer 1] = 1024 := by
    have hall : ∀ r : Row, joinSatisfied ⟨["x"], [[[.integer 1]]]⟩
        ⟨["y"], [List.replicate 1024 [.integer 2]]⟩ none [.integer 1] r = true := fun _ => rfl
    rw [partners, List.filter_eq_self.mpr fun r _ => hall r, Source.rows, List.flatten_singleton,
      List.length_replicate]
  rw [hpartners] at hfull
  exact absurd (hfull (by decide)) (by decide)

end Joins

end Query

end AegisDB
