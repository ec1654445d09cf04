import AegisDB.Query.Join

/-!
# What the joins hand out

The rows that a join still hands out are a function of where it stands.  The nested loop hands out
every pair that belongs together; what depends on the batches is only whether it takes a left row
for unmatched, since it forgets between two batches that a partner was found.  The hash join looks
at the candidates of a left row only, and what is left of a left batch is lost when a batch of
results is full.
-/

namespace AegisDB

namespace Query

/-! ## The hash table -/

namespace HashJoinOperator

theorem lookup_buildTable (keyIdx : Option ℕ) (rows : List Row) (key : Option Value) :
    ((buildTable keyIdx rows).lookup key).getD [] =
      rows.filter fun row => hashKey keyIdx row = key := by
  suffices h : ∀ table : Table (Option Value) (List Row),
      ((rows.foldl (fun table row => table.insert (hashKey keyIdx row)
        ((table.lookup (hashKey keyIdx row)).getD [] ++ [row])) table).lookup key).getD [] =
        (table.lookup key).getD [] ++ rows.filter fun row => hashKey keyIdx row = key from h ∅
  induction rows with
  | nil => simp
  | cons row rows ih =>
    intro table
    rw [List.foldl_cons, ih, Table.lookup_insert]
    by_cases h : hashKey keyIdx row = key
    · subst h
      simp
    · simp [h, Ne.symm h]

end HashJoinOperator

/-! ## One scan -/

def matchRows (sat : Row → Row → Bool) (leftRow : Row) (rightRows : List Row) : List Row :=
  (rightRows.filter (sat leftRow)).map (leftRow ++ ·)

section Scan

variable {joins : Row → Row → Except ExecutorError Bool} {sat : Row → Row → Bool} {leftRow : Row}

@[simp] theorem matchRows_nil : matchRows sat leftRow [] = [] := rfl

theorem matchRows_cons_of_sat {rightRow : Row} {rest : List Row} (h : sat leftRow rightRow = true) :
    matchRows sat leftRow (rightRow :: rest) =
      (leftRow ++ rightRow) :: matchRows sat leftRow rest := by
  simp [matchRows, h]

theorem matchRows_cons_of_not_sat {rightRow : Row} {rest : List Row}
    (h : sat leftRow rightRow = false) :
    matchRows sat leftRow (rightRow :: rest) = matchRows sat leftRow rest := by
  simp [matchRows, h]

/-- As long as the batch does not fill, all right rows are looked at. -/
theorem scanRight_done {rightRows : List Row} (results : List Row) (matched : Bool)
    (hok : ∀ rightRow ∈ rightRows, joins leftRow rightRow = .ok (sat leftRow rightRow))
    (hfits : matchRows sat leftRow rightRows = [] ∨
      results.length + (matchRows sat leftRow rightRows).length < batchLimit) :
    scanRight joins leftRow rightRows results matched =
      .ok (.done (results ++ matchRows sat leftRow rightRows)
        (matched || !(matchRows sat leftRow rightRows).isEmpty)) := by
  induction rightRows generalizing results matched with
  | nil => simp [scanRight, pure, Except.pure]
  | cons rightRow rest ih =>
    obtain ⟨hrow, hrest⟩ := List.forall_mem_cons.mp hok
    rw [scanRight, hrow]
    cases hsat : sat leftRow rightRow with
    | false =>
      rw [matchRows_cons_of_not_sat hsat] at hfits ⊢
      exact ih _ _ hrest hfits
    | true =>
      rw [matchRows_cons_of_sat hsat] at hfits ⊢
      have hlt : (results ++ [leftRow ++ rightRow]).length +
          (matchRows sat leftRow rest).length < batchLimit := by
        simpa [Nat.add_assoc, Nat.add_comm] using hfits
      have hlimit : ¬batchLimit ≤ (results ++ [leftRow ++ rightRow]).length := by omega
      have hih := ih _ true hrest (Or.inr hlt)
      simp only [bind, Except.bind, if_true, if_neg hlimit, hih]
      simp

/-- How many results fill a batch that has some rows already. -/
def roomLeft (count : ℕ) : ℕ :=
  max 1 (batchLimit - count)

/-- Otherwise the scan ends with the result that fills the batch. -/
theorem scanRight_full {rightRows : List Row} (results : List Row) (matched : Bool)
    (hok : ∀ rightRow ∈ rightRows, joins leftRow rightRow = .ok (sat leftRow rightRow))
    (hne : matchRows sat leftRow rightRows ≠ [])
    (hfull : batchLimit ≤ results.length + (matchRows sat leftRow rightRows).length) :
    ∃ rest, scanRight joins leftRow rightRows results matched =
        .ok (.full (results ++ (matchRows sat leftRow rightRows).take (roomLeft results.length))
          rest) ∧
      rest <:+ rightRows ∧
      matchRows sat leftRow rest =
        (matchRows sat leftRow rightRows).drop (roomLeft results.length) := by
  induction rightRows generalizing results matched with
  | nil => exact absurd rfl hne
  | cons rightRow rest ih =>
    obtain ⟨hrow, hrest⟩ := List.forall_mem_cons.mp hok
    rw [scanRight, hrow]
    cases hsat : sat leftRow rightRow with
    | false =>
      rw [matchRows_cons_of_not_sat hsat] at hne hfull ⊢
      obtain ⟨rest', heq, hsuffix, hdrop⟩ := ih results matched hrest hne hfull
      exact ⟨rest', heq, hsuffix.trans (List.suffix_cons _ _), hdrop⟩
    | true =>
      rw [matchRows_cons_of_sat hsat] at hfull ⊢
      by_cases hlimit : batchLimit ≤ (results ++ [leftRow ++ rightRow]).length
      · have hroom : roomLeft results.length = 1 := by
          simp only [List.length_append, List.length_singleton] at hlimit
          unfold roomLeft
          omega
        refine ⟨rest, ?_, List.suffix_cons _ _, ?_⟩
        · simp only [bind, Except.bind, if_true, if_pos hlimit, hroom]
          rfl
        · rw [hroom]
          rfl
      · have hroom : roomLeft results.length =
            roomLeft (results ++ [leftRow ++ rightRow]).length + 1 := by
          simp only [List.length_append, List.length_singleton] at hlimit ⊢
          unfold roomLeft
          omega
        have hfull' : batchLimit ≤ (results ++ [leftRow ++ rightRow]).length +
            (matchRows sat leftRow rest).length := by
          simpa [Nat.add_assoc, Nat.add_comm] using hfull
        have hne' : matchRows sat leftRow rest ≠ [] := by
          intro hnil
          rw [hnil] at hfull'
          exact hlimit hfull'
        obtain ⟨rest', heq, hsuffix, hdrop⟩ := ih _ true hrest hne' hfull'
        refine ⟨rest', ?_, hsuffix.trans (List.suffix_cons _ _), ?_⟩
        · simp only [bind, Except.bind, if_true, if_neg hlimit, heq, hroom]
          simp
        · rw [hdrop, hroom]
          rfl

end Scan

/-! ## The nested loop -/

/-- Where a scan of so many results leaves the batch: the number of rows in it, and whether a result
was added to it. -/
def tally (count results : ℕ) : ℕ × Bool :=
  if results = 0 ∨ count + results < batchLimit then (count + results, results != 0)
  else
    let rest := (results - roomLeft count) % batchLimit
    (rest, rest != 0)

theorem tally_of_fits (count results : ℕ) (h : results = 0 ∨ count + results < batchLimit) :
    tally count results = (count + results, results != 0) :=
  if_pos h

theorem tally_of_full {count results : ℕ} (hne : results ≠ 0)
    (hfull : batchLimit ≤ count + results) :
    tally count results = tally 0 (results - roomLeft count) := by
  have hnot : ¬(results = 0 ∨ count + results < batchLimit) := by omega
  rw [tally, if_neg hnot]
  generalize results - roomLeft count = rest
  have hlimit : 0 < batchLimit := by decide
  by_cases hrest : rest < batchLimit
  · rw [tally_of_fits _ _ (Or.inr (by omega)), Nat.mod_eq_of_lt hrest, Nat.zero_add]
  · by_cases hzero : rest = 0
    · omega
    · rw [tally, if_neg (by omega)]
      have hroom : roomLeft 0 = batchLimit := by decide
      rw [hroom, Nat.mod_eq_sub_mod (Nat.le_of_not_lt hrest)]

namespace JoinOperator

section Output

variable (op : JoinOperator) (sat : Row → Row → Bool) (rightData : List Row)

/-- The rows for a left row none of whose partners is in the current batch. -/
def padding (leftRow : Row) (matched : Bool) : List Row :=
  padUnmatched op.joinType op.rightColCount leftRow [] matched

theorem padUnmatched_eq (leftRow : Row) (results : List Row) (matched : Bool) :
    padUnmatched op.joinType op.rightColCount leftRow results matched =
      results ++ op.padding leftRow matched := by
  unfold padding padUnmatched
  split_ifs <;> simp

/-- What a nested loop still hands out: it has so many rows in the batch, and the first left row is
yet to be compared with the given right rows. -/
def output : ℕ → List Row → List Row → List Row
  | _, _, [] => []
  | count, rightRows, leftRow :: leftRows =>
      let results := matchRows sat leftRow rightRows
      let pad := op.padding leftRow (tally count results.length).2
      results ++ pad ++ output ((tally count results.length).1 + pad.length) rightData leftRows

/-- What a nested loop at a cursor still hands out. -/
def cursorOutput (c : JoinCursor) : List Row :=
  match c.leftBatch with
  | some (leftRow :: leftRows) =>
      op.output sat rightData 0 c.rightRows (leftRow :: leftRows ++ c.left.flatten)
  | _ => op.output sat rightData 0 rightData c.left.flatten

variable {op sat rightData}

theorem output_of_full {count : ℕ} {rightRows rest leftRows : List Row} {leftRow : Row}
    (hne : matchRows sat leftRow rightRows ≠ [])
    (hfull : batchLimit ≤ count + (matchRows sat leftRow rightRows).length)
    (hrest : matchRows sat leftRow rest =
      (matchRows sat leftRow rightRows).drop (roomLeft count)) :
    op.output sat rightData count rightRows (leftRow :: leftRows) =
      (matchRows sat leftRow rightRows).take (roomLeft count) ++
        op.output sat rightData 0 rest (leftRow :: leftRows) := by
  have htally : tally count (matchRows sat leftRow rightRows).length =
      tally 0 (matchRows sat leftRow rest).length := by
    rw [tally_of_full (by simpa using hne) hfull, hrest, List.length_drop]
  simp only [output, htally]
  rw [hrest, ← List.append_assoc, ← List.append_assoc, List.take_append_drop]

theorem output_of_fits {count : ℕ} {rightRows leftRows : List Row} {leftRow : Row}
    (hfits : matchRows sat leftRow rightRows = [] ∨
      count + (matchRows sat leftRow rightRows).length < batchLimit) :
    op.output sat rightData count rightRows (leftRow :: leftRows) =
      matchRows sat leftRow rightRows ++
        op.padding leftRow (!(matchRows sat leftRow rightRows).isEmpty) ++
        op.output sat rightData (count + (matchRows sat leftRow rightRows ++
          op.padding leftRow (!(matchRows sat leftRow rightRows).isEmpty)).length) rightData
          leftRows := by
  have hbool : ((matchRows sat leftRow rightRows).length != 0) =
      !(matchRows sat leftRow rightRows).isEmpty := by
    cases matchRows sat leftRow rightRows <;> rfl
  have htally := tally_of_fits count (matchRows sat leftRow rightRows).length
    (by simpa using hfits)
  simp only [output, htally, hbool, List.length_append, Nat.add_assoc]

end Output

section Run

variable {op : JoinOperator} {sat : Row → Row → Bool} {rightData : List Row}

/-- The condition can be evaluated on the left rows with all right rows. -/
def Evaluates (joins : Row → Row → Except ExecutorError Bool) (sat : Row → Row → Bool)
    (leftRows rightRows : List Row) : Prop :=
  ∀ leftRow ∈ leftRows, ∀ rightRow ∈ rightRows, joins leftRow rightRow = .ok (sat leftRow rightRow)

/-- How far the rows of a left batch were gone through, and what of the output this was. -/
inductive ScanOutput (op : JoinOperator) (sat : Row → Row → Bool) (rightData : List Row)
    (leftRows rightRows results : List Row) : Progress → Prop where
  | finished (new : List Row) (h : ∀ more, op.output sat rightData results.length rightRows
      (leftRows ++ more) = new ++ op.output sat rightData (results ++ new).length rightData more) :
      ScanOutput op sat rightData leftRows rightRows results (.finished (results ++ new))
  | paused (new : List Row) (leftRow : Row) (leftRows' rest : List Row) (hne : new ≠ [])
      (hrest : rest <:+ rightData) (hleft : leftRow :: leftRows' <:+ leftRows)
      (h : ∀ more, op.output sat rightData results.length rightRows (leftRows ++ more) =
        new ++ op.output sat rightData 0 rest (leftRow :: leftRows' ++ more)) :
      ScanOutput op sat rightData leftRows rightRows results
        (.paused (results ++ new) (leftRow :: leftRows') rest)

theorem scanLeft_spec {leftRows rightRows : List Row} (results : List Row)
    (hok : Evaluates (evaluateJoinCondition op.condition op.columns) sat leftRows rightData)
    (hsuffix : rightRows <:+ rightData) (hnil : leftRows = [] → rightRows = rightData) :
    ∃ progress, op.scanLeft rightData leftRows rightRows results = .ok progress ∧
      ScanOutput op sat rightData leftRows rightRows results progress := by
  induction leftRows generalizing rightRows results with
  | nil =>
    obtain rfl := hnil rfl
    refine ⟨.finished results, rfl, ?_⟩
    have hfinished : ScanOutput op sat rightRows [] rightRows results
        (.finished (results ++ [])) := .finished [] (by simp)
    rwa [List.append_nil] at hfinished
  | cons leftRow leftRows ih =>
    obtain ⟨hrow, hrows⟩ := List.forall_mem_cons.mp hok
    have hrow' : ∀ rightRow ∈ rightRows,
        evaluateJoinCondition op.condition op.columns leftRow rightRow =
          .ok (sat leftRow rightRow) := fun r hr => hrow r (hsuffix.subset hr)
    by_cases hfits : matchRows sat leftRow rightRows = [] ∨
        results.length + (matchRows sat leftRow rightRows).length < batchLimit
    · have hdone := scanRight_done results false hrow' hfits
      set matched := !(matchRows sat leftRow rightRows).isEmpty with hmatched
      set row := matchRows sat leftRow rightRows ++ op.padding leftRow matched with hrowdef
      obtain ⟨progress, heq, hprogress⟩ := ih (results ++ row) hrows
        (List.suffix_refl rightData) fun _ => rfl
      have hout : ∀ more, op.output sat rightData results.length rightRows
          (leftRow :: leftRows ++ more) =
          row ++ op.output sat rightData (results ++ row).length rightData (leftRows ++ more) := by
        intro more
        have hlength : (results ++ row).length = results.length + row.length := List.length_append
        rw [List.cons_append, output_of_fits hfits, ← hmatched, ← hrowdef, hlength]
      refine ⟨progress, ?_, ?_⟩
      · rw [scanLeft, hdone]
        simp only [bind, Except.bind, Bool.false_or, padUnmatched_eq, List.append_assoc]
        exact heq
      · cases hprogress with
        | finished new h =>
          rw [List.append_assoc]
          refine .finished (row ++ new) fun more => ?_
          rw [hout, h more]
          simp only [List.append_assoc]
        | paused new leftRow' leftRows' rest hne hrest hleft h =>
          rw [List.append_assoc]
          refine .paused (row ++ new) leftRow' leftRows' rest ?_ hrest
            (hleft.trans (List.suffix_cons _ _)) fun more => ?_
          · simp [hne]
          · rw [hout, h more]
            simp only [List.append_assoc]
    · rw [not_or, Nat.not_lt] at hfits
      obtain ⟨rest, heq, hrest, hdrop⟩ := scanRight_full results false hrow' hfits.1 hfits.2
      set new := (matchRows sat leftRow rightRows).take (roomLeft results.length) with hnew
      refine ⟨.paused (results ++ new) (leftRow :: leftRows) rest, ?_,
        .paused new leftRow leftRows rest ?_ (hrest.trans hsuffix) (List.suffix_refl _)
          fun more => ?_⟩
      · rw [scanLeft, heq]
        rfl
      · have hroom : roomLeft results.length ≠ 0 := by
          unfold roomLeft
          omega
        simp [hnew, hroom, hfits.1]
      · exact output_of_full hfits.1 hfits.2 hdrop

/-- A cursor of the nested loop: the right rows that have been read are all of them, and the current
left row is to be compared with some of the last of them. -/
structure CursorOk (rightData : List Row) (c : JoinCursor) : Prop where
  read : c.rightData.getD rightData = rightData
  pending : c.rightRows <:+ rightData
  started : c.leftBatch ≠ some []

/-- The left rows that a nested loop has not finished. -/
def cursorRows (c : JoinCursor) : List Row :=
  c.leftBatch.getD [] ++ c.left.flatten

theorem scanBatches_spec {left : List (List Row)} (results : List Row)
    (hok : Evaluates (evaluateJoinCondition op.condition op.columns) sat left.flatten rightData) :
    ∃ new c, op.scanBatches rightData left results = .ok (results ++ new, c) ∧
      op.output sat rightData results.length rightData left.flatten =
        new ++ op.cursorOutput sat rightData c ∧
      CursorOk rightData c ∧ cursorRows c <:+ left.flatten ∧
      (new = [] → op.cursorOutput sat rightData c = []) := by
  induction left generalizing results with
  | nil =>
    refine ⟨[], _, by rw [scanBatches, List.append_nil]; rfl, rfl, ⟨rfl, List.suffix_refl _, ?_⟩,
      List.suffix_refl _, fun _ => rfl⟩
    exact fun h => nomatch h
  | cons batch left ih =>
    rw [List.flatten_cons] at hok ⊢
    have hbatch : Evaluates (evaluateJoinCondition op.condition op.columns) sat batch rightData :=
      fun l hl => hok l (List.mem_append_left _ hl)
    have hleft : Evaluates (evaluateJoinCondition op.condition op.columns) sat left.flatten
        rightData := fun l hl => hok l (List.mem_append_right _ hl)
    obtain ⟨progress, heq, hprogress⟩ := scanLeft_spec results hbatch
      (List.suffix_refl rightData) fun _ => rfl
    cases hprogress with
    | finished new h =>
      obtain ⟨new', c, heq', hout, hcursor, hrows, hempty⟩ := ih (results ++ new) hleft
      refine ⟨new ++ new', c, ?_, ?_, hcursor, hrows.trans (List.suffix_append _ _), ?_⟩
      · rw [scanBatches, heq]
        simp only [bind, Except.bind]
        rw [heq', List.append_assoc]
      · rw [h left.flatten, hout, List.append_assoc]
      · intro hnil
        exact hempty (List.append_eq_nil_iff.mp hnil).2
    | paused new leftRow leftRows rest hne hrest hsuffix h =>
      refine ⟨new, ⟨left, some rightData, some (leftRow :: leftRows), rest⟩,
        by rw [scanBatches, heq]; rfl, h left.flatten, ⟨rfl, hrest, ?_⟩, ?_,
        fun hnil => absurd hnil hne⟩
      · simp
      · obtain ⟨front, hfront⟩ := hsuffix
        exact ⟨front, by simp [cursorRows, ← hfront]⟩

theorem nextBatch_spec {c : JoinCursor}
    (hok : Evaluates (evaluateJoinCondition op.condition op.columns) sat (cursorRows c)
      op.right.flatten) (hc : CursorOk op.right.flatten c) :
    ∃ new c', op.nextBatch c = .ok (if new.isEmpty then none else some new, c') ∧
      op.cursorOutput sat op.right.flatten c = new ++ op.cursorOutput sat op.right.flatten c' ∧
      CursorOk op.right.flatten c' ∧ cursorRows c' <:+ cursorRows c ∧
      (new = [] → op.cursorOutput sat op.right.flatten c' = []) := by
  obtain ⟨left, rightData, leftBatch, rightRows⟩ := c
  have hdata := hc.read
  simp only at hdata
  cases leftBatch with
  | none =>
    obtain ⟨new, c', heq, hout, hcursor, hrows, hempty⟩ :=
      scanBatches_spec [] (show Evaluates _ _ left.flatten _ from hok)
    refine ⟨new, c', ?_, hout, hcursor, hrows, hempty⟩
    simp only [nextBatch, hdata, heq]
    simp [bind, Except.bind, pure, Except.pure]
  | some leftRows =>
    have hleftRows : leftRows ≠ [] := fun h => hc.started (by rw [h])
    obtain ⟨leftRow, leftRows, rfl⟩ := List.exists_cons_of_ne_nil hleftRows
    have hcurrent : Evaluates (evaluateJoinCondition op.condition op.columns) sat
        (leftRow :: leftRows) op.right.flatten := fun l hl => hok l (List.mem_append_left _ hl)
    have hleft : Evaluates (evaluateJoinCondition op.condition op.columns) sat left.flatten
        op.right.flatten := fun l hl => hok l (List.mem_append_right _ hl)
    have hpending : rightRows <:+ op.right.flatten := hc.pending
    obtain ⟨progress, heq, hprogress⟩ := scanLeft_spec [] hcurrent hpending
      fun h => absurd h hleftRows
    cases hprogress with
    | finished new h =>
      obtain ⟨new', c', heq', hout, hcursor, hrows, hempty⟩ :=
        scanBatches_spec ([] ++ new) hleft
      refine ⟨new ++ new', c', ?_, ?_, hcursor, hrows.trans (List.suffix_append _ _), ?_⟩
      · simp only [nextBatch, hdata, heq]
        simp only [bind, Except.bind, heq']
        simp [pure, Except.pure]
      · rw [List.append_assoc, ← hout]
        exact h left.flatten
      · intro hnil
        exact hempty (List.append_eq_nil_iff.mp hnil).2
    | paused new leftRow' leftRows' rest hne hrest hsuffix h =>
      refine ⟨new, ⟨left, some op.right.flatten, some (leftRow' :: leftRows'), rest⟩, ?_,
        h left.flatten, ⟨rfl, hrest, ?_⟩, ?_, fun hnil => absurd hnil hne⟩
      · simp only [nextBatch, hdata, heq]
        simp only [bind, Except.bind, pure, Except.pure, List.nil_append]
      · simp
      · obtain ⟨front, hfront⟩ := hsuffix
        exact ⟨front, by simp [cursorRows, ← hfront]⟩

theorem produces_cursorOutput {c : JoinCursor}
    (hok : Evaluates (evaluateJoinCondition op.condition op.columns) sat (cursorRows c)
      op.right.flatten) (hc : CursorOk op.right.flatten c) :
    Produces op.nextBatch c (op.cursorOutput sat op.right.flatten c) := by
  induction hn : (op.cursorOutput sat op.right.flatten c).length using Nat.strong_induction_on
    generalizing c with
  | h n ih =>
    obtain ⟨new, c', heq, hout, hc', hrows, hempty⟩ := nextBatch_spec hok hc
    by_cases hnew : new = []
    · rw [hout, hnew, hempty hnew]
      exact .done (by rw [heq, hnew]; rfl)
    · rw [hout]
      have hsome : op.nextBatch c = .ok (some new, c') := by
        rw [heq, if_neg (by simpa using hnew)]
      refine .batch hsome (ih _ ?_ (fun l hl => hok l (hrows.subset hl)) hc' rfl)
      have hpos := List.length_pos_iff.mpr hnew
      rw [← hn, hout, List.length_append]
      omega

end Run

end JoinOperator

/-! ## Conditions that fail -/

/-- The condition has a truth value on the two rows. -/
def Evaluated (joins : Row → Row → Except ExecutorError Bool) (leftRow rightRow : Row) : Prop :=
  ∃ b, joins leftRow rightRow = .ok b

theorem scanRight_evaluated {joins : Row → Row → Except ExecutorError Bool} {leftRow rightRow : Row}
    {rightRows results : List Row} {matched : Bool} {scan : Scan}
    (h : scanRight joins leftRow rightRows results matched = .ok scan)
    (hmem : rightRow ∈ rightRows) :
    Evaluated joins leftRow rightRow ∨
      ∃ results' rest, scan = .full results' rest ∧ rightRow ∈ rest := by
  induction rightRows generalizing results matched with
  | nil => simp at hmem
  | cons first rest ih =>
    rw [scanRight] at h
    cases hjoins : joins leftRow first with
    | error e =>
      rw [hjoins] at h
      simp [bind, Except.bind] at h
    | ok b =>
      rcases List.mem_cons.mp hmem with rfl | hmem
      · exact Or.inl ⟨b, hjoins⟩
      · rw [hjoins] at h
        simp only [bind, Except.bind] at h
        split_ifs at h
        · simp only [pure, Except.pure, Except.ok.injEq] at h
          exact Or.inr ⟨_, rest, h.symm, hmem⟩
        · exact ih h hmem
        · exact ih h hmem

theorem scanRight_full_ne_nil {joins : Row → Row → Except ExecutorError Bool} {leftRow : Row}
    {rightRows results results' rest : List Row} {matched : Bool}
    (h : scanRight joins leftRow rightRows results matched = .ok (.full results' rest)) :
    results' ≠ [] := by
  induction rightRows generalizing results matched with
  | nil => simp [scanRight, pure, Except.pure] at h
  | cons first rest' ih =>
    rw [scanRight] at h
    cases hjoins : joins leftRow first with
    | error e =>
      rw [hjoins] at h
      simp [bind, Except.bind] at h
    | ok b =>
      rw [hjoins] at h
      simp only [bind, Except.bind] at h
      split_ifs at h
      · simp only [pure, Except.pure, Except.ok.injEq, Scan.full.injEq] at h
        simp [← h.1]
      · exact ih h
      · exact ih h

namespace JoinOperator

/-- Pairs of rows that are yet to be compared when the first left row is to be compared with the
given right rows. -/
def Pending (rightData rightRows : List Row) : List Row → Row → Row → Prop
  | [], _, _ => False
  | leftRow :: leftRows, l, r => l = leftRow ∧ r ∈ rightRows ∨ l ∈ leftRows ∧ r ∈ rightData

/-- Pairs of rows that a nested loop at a cursor is yet to compare. -/
def CursorPending (rightData : List Row) (c : JoinCursor) (l r : Row) : Prop :=
  Pending rightData c.rightRows (c.leftBatch.getD []) l r ∨ l ∈ c.left.flatten ∧ r ∈ rightData

section Pending

variable {op : JoinOperator} {rightData : List Row} {l r : Row}

theorem pending_of_mem {rows : List Row} (hl : l ∈ rows) (hr : r ∈ rightData) :
    Pending rightData rightData rows l r := by
  cases rows with
  | nil => simp at hl
  | cons row rows => exact (List.mem_cons.mp hl).imp (⟨·, hr⟩) (⟨·, hr⟩)

theorem scanLeft_evaluated {leftRows rightRows results : List Row} {progress : Progress}
    (h : op.scanLeft rightData leftRows rightRows results = .ok progress)
    (hpending : Pending rightData rightRows leftRows l r) :
    Evaluated (evaluateJoinCondition op.condition op.columns) l r ∨
      ∃ results' leftRows' rest, progress = .paused results' leftRows' rest ∧
        Pending rightData rest leftRows' l r := by
  induction leftRows generalizing rightRows results with
  | nil => exact absurd hpending id
  | cons leftRow leftRows ih =>
    rw [scanLeft] at h
    cases hscan : scanRight (evaluateJoinCondition op.condition op.columns) leftRow rightRows
        results false with
    | error e =>
      rw [hscan] at h
      simp [bind, Except.bind] at h
    | ok scan =>
      rw [hscan] at h
      simp only [bind, Except.bind] at h
      cases scan with
      | full results' rest =>
        simp only [pure, Except.pure, Except.ok.injEq] at h
        rcases hpending with ⟨rfl, hr⟩ | hrows
        · rcases scanRight_evaluated hscan hr with hev | ⟨_, _, heq, hmem⟩
          · exact Or.inl hev
          · cases heq
            exact Or.inr ⟨_, _, _, h.symm, Or.inl ⟨rfl, hmem⟩⟩
        · exact Or.inr ⟨_, _, _, h.symm, Or.inr hrows⟩
      | done results' matched =>
        rcases hpending with ⟨rfl, hr⟩ | ⟨hl, hr⟩
        · rcases scanRight_evaluated hscan hr with hev | ⟨_, _, heq, -⟩
          · exact Or.inl hev
          · cases heq
        · exact ih h (pending_of_mem hl hr)

theorem scanLeft_paused_ne_nil {leftRows rightRows results results' leftRows' rest : List Row}
    (h : op.scanLeft rightData leftRows rightRows results = .ok (.paused results' leftRows' rest)) :
    results' ≠ [] := by
  induction leftRows generalizing rightRows results with
  | nil => simp [scanLeft, pure, Except.pure] at h
  | cons leftRow leftRows ih =>
    rw [scanLeft] at h
    cases hscan : scanRight (evaluateJoinCondition op.condition op.columns) leftRow rightRows
        results false with
    | error e =>
      rw [hscan] at h
      simp [bind, Except.bind] at h
    | ok scan =>
      rw [hscan] at h
      simp only [bind, Except.bind] at h
      cases scan with
      | full results'' rest' =>
        simp only [pure, Except.pure, Except.ok.injEq, Progress.paused.injEq] at h
        rw [← h.1]
        exact scanRight_full_ne_nil hscan
      | done results'' matched => exact ih h

/-- After a pass over left batches the pairs of their rows have been compared, or the batch is full
and they are still to be compared. -/
theorem scanBatches_evaluated {left : List (List Row)} {results results' : List Row}
    {c : JoinCursor} (h : op.scanBatches rightData left results = .ok (results', c)) :
    c.rightData = some rightData ∧
    (l ∈ left.flatten ∧ r ∈ rightData →
      Evaluated (evaluateJoinCondition op.condition op.columns) l r ∨
        results' ≠ [] ∧ CursorPending rightData c l r) := by
  induction left generalizing results with
  | nil =>
    simp only [scanBatches, pure, Except.pure, Except.ok.injEq, Prod.mk.injEq] at h
    refine ⟨by rw [← h.2], fun hmem => ?_⟩
    simp at hmem
  | cons batch left ih =>
    rw [scanBatches] at h
    cases hscan : op.scanLeft rightData batch rightData results with
    | error e =>
      rw [hscan] at h
      simp [bind, Except.bind] at h
    | ok progress =>
      rw [hscan] at h
      simp only [bind, Except.bind] at h
      have hbatch : l ∈ batch → r ∈ rightData →
          Pending rightData rightData batch l r := pending_of_mem
      cases progress with
      | paused results'' leftRows rest =>
        simp only [pure, Except.pure, Except.ok.injEq, Prod.mk.injEq] at h
        obtain ⟨rfl, rfl⟩ := h
        refine ⟨rfl, fun ⟨hl, hr⟩ => ?_⟩
        rw [List.flatten_cons, List.mem_append] at hl
        rcases hl with hl | hl
        · rcases scanLeft_evaluated hscan (hbatch hl hr) with hev | ⟨_, _, _, heq, hp⟩
          · exact Or.inl hev
          · cases heq
            exact Or.inr ⟨scanLeft_paused_ne_nil hscan, Or.inl hp⟩
        · exact Or.inr ⟨scanLeft_paused_ne_nil hscan, Or.inr ⟨hl, hr⟩⟩
      | finished results'' =>
        obtain ⟨hdata, hrest⟩ := ih h
        refine ⟨hdata, fun ⟨hl, hr⟩ => ?_⟩
        rw [List.flatten_cons, List.mem_append] at hl
        rcases hl with hl | hl
        · rcases scanLeft_evaluated hscan (hbatch hl hr) with hev | ⟨_, _, _, heq, -⟩
          · exact Or.inl hev
          · cases heq
        · exact hrest ⟨hl, hr⟩

theorem nextBatch_evaluated {c c' : JoinCursor} {o : Option (List Row)}
    (h : op.nextBatch c = .ok (o, c'))
    (hread : c.rightData.getD op.right.flatten = op.right.flatten)
    (hpending : CursorPending op.right.flatten c l r) :
    c'.rightData = some op.right.flatten ∧
      (Evaluated (evaluateJoinCondition op.condition op.columns) l r ∨
        o ≠ none ∧ CursorPending op.right.flatten c' l r) := by
  unfold nextBatch at h
  rw [hread] at h
  have hsome : ∀ results : List Row, results ≠ [] →
      (if results.isEmpty then none else some results) ≠ none := by
    intro results hne
    simp [hne]
  cases hbatch : c.leftBatch with
  | none =>
    rw [hbatch] at h
    rcases hpending with hp | hp
    · rw [hbatch] at hp
      exact absurd hp id
    · cases hscan : op.scanBatches op.right.flatten c.left [] with
      | error e =>
        simp only [hscan, bind, Except.bind] at h
        cases h
      | ok result =>
        simp only [hscan, bind, Except.bind, pure, Except.pure, Except.ok.injEq, Prod.mk.injEq] at h
        obtain ⟨rfl, rfl⟩ := h
        obtain ⟨hdata, hev⟩ := scanBatches_evaluated (l := l) (r := r) hscan
        exact ⟨hdata, (hev hp).imp_right fun hp => ⟨hsome _ hp.1, hp.2⟩⟩
  | some leftRows =>
    rw [hbatch] at h
    cases hleft : op.scanLeft op.right.flatten leftRows c.rightRows [] with
    | error e =>
      simp only [hleft, bind, Except.bind] at h
      cases h
    | ok progress =>
      cases progress with
      | paused results leftRows' rest =>
        simp only [hleft, bind, Except.bind, pure, Except.pure, Except.ok.injEq,
          Prod.mk.injEq] at h
        obtain ⟨rfl, rfl⟩ := h
        refine ⟨rfl, ?_⟩
        have hne := hsome _ (scanLeft_paused_ne_nil hleft)
        rcases hpending with hp | hp
        · rw [hbatch] at hp
          rcases scanLeft_evaluated hleft hp with hev | ⟨_, _, _, heq, hp⟩
          · exact Or.inl hev
          · cases heq
            exact Or.inr ⟨hne, Or.inl hp⟩
        · exact Or.inr ⟨hne, Or.inr hp⟩
      | finished results =>
        cases hscan : op.scanBatches op.right.flatten c.left results with
        | error e =>
          simp only [hleft, hscan, bind, Except.bind] at h
          cases h
        | ok result =>
          simp only [hleft, hscan, bind, Except.bind, pure, Except.pure, Except.ok.injEq,
            Prod.mk.injEq] at h
          obtain ⟨rfl, rfl⟩ := h
          obtain ⟨hdata, hev⟩ := scanBatches_evaluated (l := l) (r := r) hscan
          refine ⟨hdata, ?_⟩
          rcases hpending with hp | hp
          · rw [hbatch] at hp
            rcases scanLeft_evaluated hleft hp with hev | ⟨_, _, _, heq, -⟩
            · exact Or.inl hev
            · cases heq
          · exact (hev hp).imp_right fun hp => ⟨hsome _ hp.1, hp.2⟩

theorem evaluated_of_produces {c : JoinCursor} {rows : List Row} (h : Produces op.nextBatch c rows)
    (hread : c.rightData.getD op.right.flatten = op.right.flatten)
    (hpending : CursorPending op.right.flatten c l r) :
    Evaluated (evaluateJoinCondition op.condition op.columns) l r := by
  induction h with
  | done hnext =>
    rcases (nextBatch_evaluated hnext hread hpending).2 with hev | ⟨hne, -⟩
    · exact hev
    · exact absurd rfl hne
  | batch hnext _ ih =>
    obtain ⟨hdata, hev | ⟨-, hp⟩⟩ := nextBatch_evaluated hnext hread hpending
    · exact hev
    · exact ih (by rw [hdata]; rfl) hp

end Pending

end JoinOperator

/-! ## The hash join -/

namespace HashJoinOperator

section Output

variable (op : HashJoinOperator) (sat : Row → Row → Bool)

/-- The row for a left row that has no partner. -/
def padding (leftRow : Row) (matched : Bool) : List Row :=
  padUnmatched op.joinType op.rightColumns.length leftRow [] matched

theorem padUnmatched_eq (leftRow : Row) (results : List Row) (matched : Bool) :
    padUnmatched op.joinType op.rightColumns.length leftRow results matched =
      results ++ op.padding leftRow matched := by
  unfold padding padUnmatched
  split_ifs <;> simp

def rowOutput (leftRow : Row) : List Row :=
  matchRows sat leftRow (op.candidates leftRow) ++
    op.padding leftRow (!(matchRows sat leftRow (op.candidates leftRow)).isEmpty)

/-- What the rows of a left batch add to the results, and whether this fills the batch. -/
def probeOutput : ℕ → List Row → List Row × Bool
  | _, [] => ([], false)
  | count, leftRow :: leftRows =>
      let results := matchRows sat leftRow (op.candidates leftRow)
      if results = [] ∨ count + results.length < batchLimit then
        let rest := probeOutput (count + (op.rowOutput sat leftRow).length) leftRows
        (op.rowOutput sat leftRow ++ rest.1, rest.2)
      else (results.take (roomLeft count), true)

/-- What a hash join still hands out when it has so many rows in the batch. -/
def output : ℕ → List (List Row) → List Row
  | _, [] => []
  | count, batch :: left =>
      let rows := op.probeOutput sat count batch
      rows.1 ++ output (if rows.2 then 0 else count + rows.1.length) left

/-- What a hash join at a cursor still hands out. -/
def cursorOutput (c : HashJoinCursor) : List Row :=
  if c.done then [] else op.output sat 0 c.left

end Output

section Run

variable {op : HashJoinOperator} {sat : Row → Row → Bool}

/-- The condition can be evaluated on the left rows with their candidates. -/
def Evaluates (op : HashJoinOperator) (sat : Row → Row → Bool) (leftRows : List Row) : Prop :=
  ∀ leftRow ∈ leftRows, ∀ rightRow ∈ op.candidates leftRow,
    evaluateJoinCondition op.condition op.columns leftRow rightRow = .ok (sat leftRow rightRow)

theorem probeRows_spec {leftRows : List Row} (results : List Row)
    (hok : op.Evaluates sat leftRows) :
    op.probeRows leftRows results = .ok (results ++ (op.probeOutput sat results.length leftRows).1,
      (op.probeOutput sat results.length leftRows).2) := by
  induction leftRows generalizing results with
  | nil => simp [probeRows, probeOutput, pure, Except.pure]
  | cons leftRow leftRows ih =>
    obtain ⟨hrow, hrows⟩ := List.forall_mem_cons.mp hok
    by_cases hfits : matchRows sat leftRow (op.candidates leftRow) = [] ∨
        results.length + (matchRows sat leftRow (op.candidates leftRow)).length < batchLimit
    · have hdone := scanRight_done results false hrow hfits
      have hlength : (results ++ op.rowOutput sat leftRow).length =
          results.length + (op.rowOutput sat leftRow).length := List.length_append
      rw [probeRows, hdone]
      simp only [bind, Except.bind, Bool.false_or, padUnmatched_eq, List.append_assoc, probeOutput,
        if_pos hfits, ← hlength]
      refine (ih _ hrows).trans ?_
      rw [List.append_assoc]
      rfl
    · have hfull : probeOutput op sat results.length (leftRow :: leftRows) =
          ((matchRows sat leftRow (op.candidates leftRow)).take (roomLeft results.length), true) :=
        if_neg hfits
      rw [not_or, Nat.not_lt] at hfits
      obtain ⟨rest, heq, -, -⟩ := scanRight_full results false hrow hfits.1 hfits.2
      rw [probeRows, heq, hfull]
      rfl

theorem probeOutput_ne_nil {count : ℕ} {leftRows : List Row}
    (h : (op.probeOutput sat count leftRows).2 = true) :
    (op.probeOutput sat count leftRows).1 ≠ [] := by
  induction leftRows generalizing count with
  | nil => simp [probeOutput] at h
  | cons leftRow leftRows ih =>
    unfold probeOutput at h ⊢
    by_cases hfits : matchRows sat leftRow (op.candidates leftRow) = [] ∨
        count + (matchRows sat leftRow (op.candidates leftRow)).length < batchLimit
    · simp only [if_pos hfits] at h ⊢
      simp [ih h]
    · simp only [if_neg hfits] at h ⊢
      have hroom : roomLeft count ≠ 0 := by
        unfold roomLeft
        omega
      simp [hroom, (not_or.mp hfits).1]

theorem probeBatches_spec {left : List (List Row)} (results : List Row)
    (hok : op.Evaluates sat left.flatten) :
    ∃ new c, op.probeBatches left results = .ok
        (if (results ++ new).isEmpty then none else some (results ++ new), c) ∧
      op.output sat results.length left = new ++ op.cursorOutput sat c ∧
      c.left.flatten <:+ left.flatten ∧ (results ++ new = [] → op.cursorOutput sat c = []) := by
  induction left generalizing results with
  | nil =>
    refine ⟨[], ⟨[], true⟩, ?_, rfl, List.suffix_refl _, fun _ => rfl⟩
    rw [List.append_nil]
    rfl
  | cons batch left ih =>
    rw [List.flatten_cons] at hok ⊢
    have hbatch : op.Evaluates sat batch := fun l hl => hok l (List.mem_append_left _ hl)
    have hleft : op.Evaluates sat left.flatten := fun l hl => hok l (List.mem_append_right _ hl)
    have hprobe := probeRows_spec results hbatch
    set rows := op.probeOutput sat results.length batch with hrows
    cases hfull : rows.2 with
    | true =>
      have hne : results ++ rows.1 ≠ [] := by
        have := probeOutput_ne_nil (hrows ▸ hfull)
        simp [hrows, this]
      refine ⟨rows.1, ⟨left, false⟩, ?_, ?_, List.suffix_append _ _, fun h => absurd h hne⟩
      · rw [probeBatches, hprobe]
        simp [bind, Except.bind, hfull, pure, Except.pure, hne]
      · rw [output, ← hrows, hfull]
        rfl
    | false =>
      obtain ⟨new, c, heq, hout, hsuffix, hempty⟩ := ih (results ++ rows.1) hleft
      refine ⟨rows.1 ++ new, c, ?_, ?_, hsuffix.trans (List.suffix_append _ _), ?_⟩
      · rw [probeBatches, hprobe]
        simp only [bind, Except.bind, hfull]
        rw [List.append_assoc] at heq
        exact heq
      · have hlength : (results ++ rows.1).length = results.length + rows.1.length :=
          List.length_append
        rw [output, ← hrows, hfull]
        simp only [Bool.false_eq_true, if_false, ← hlength]
        rw [hout, List.append_assoc]
      · rw [← List.append_assoc]
        exact hempty

theorem produces_cursorOutput {c : HashJoinCursor} (hok : op.Evaluates sat c.left.flatten) :
    Produces op.nextBatch c (op.cursorOutput sat c) := by
  induction hn : (op.cursorOutput sat c).length using Nat.strong_induction_on generalizing c with
  | h n ih =>
    cases hdone : c.done with
    | true =>
      rw [cursorOutput, if_pos hdone]
      have hnone : op.nextBatch c = .ok (none, c) := if_pos hdone
      exact .done hnone
    | false =>
      obtain ⟨new, c', heq, hout, hsuffix, hempty⟩ := probeBatches_spec [] hok
      have hnot : ¬c.done = true := by simp [hdone]
      have hcursor : op.cursorOutput sat c = new ++ op.cursorOutput sat c' := by
        rw [cursorOutput, if_neg hnot]
        exact hout
      have hnext : op.nextBatch c = .ok (if new.isEmpty then none else some new, c') := by
        rw [nextBatch, if_neg hnot, heq]
        rfl
      by_cases hnew : new = []
      · rw [hcursor, hnew, hempty (by simp [hnew])]
        exact .done (by rw [hnext, hnew]; rfl)
      · rw [hcursor]
        have hsome : op.nextBatch c = .ok (some new, c') := by
          rw [hnext, if_neg (by simpa using hnew)]
        refine .batch hsome (ih _ ?_ (fun l hl => hok l (hsuffix.subset hl)) rfl)
        have hpos := List.length_pos_iff.mpr hnew
        rw [← hn, hcursor, List.length_append]
        omega

end Run

end HashJoinOperator

end Query

end AegisDB
