import AegisDB.Query.Context

/-!
# Transfers between two rows

A transfer finds two rows of a table by an index, reads the integer of each in the same column,
takes an amount from the first, and gives it to the second.  Both integers are read before either is
written, so a row that is both the sender and the receiver gets the amount without paying it; and
the new integers wrap around.  Apart from these a transfer keeps the sum of the column.
-/

namespace AegisDB

namespace Query

/-- What becomes of a transfer. -/
inductive TransferOutcome where
  | committed
  /-- Sender did not have enough balance; nothing was changed. -/
  | insufficientFunds
  | accountMissing
deriving DecidableEq

namespace TableData

variable (data : TableData)

def cell (i j : ℕ) : Option Value :=
  data.rows[i]?.bind fun row => row[j]?

def setCell (i j : ℕ) (value : Value) : TableData :=
  { data with rows := data.rows.modify i fun row => row.set j value }

def readBalance (balanceColIdx id : ℕ) : Except ExecutorError Int64 :=
  match data.cell id balanceColIdx with
  | some (.integer n) => .ok n
  | _ => .error (.invalidOperation "balance column is not an integer")

end TableData

/-- The two rows of a transfer, and what was read of them. -/
structure Accounts where
  data : TableData
  fromId : ℕ
  toId : ℕ
  senderBalance : Int64
  receiverBalance : Int64

namespace ExecutionContext

variable (ctx : ExecutionContext) (text : DebugText)

/-- The first row that an index has for a key and that is visible. -/
def accountRow (manager : TableIndexManager) (indexName : String) (data : TableData)
    (key : Value) : Option ℕ :=
  ((manager.lookupEq indexName [IndexKey.fromValue text.value key]).getD []).find?
    (data.isRowVisible ctx.snapshotVersion)

variable (tableName indexColumn : String) (fromKey toKey : Value) (balanceColIdx : ℕ)
  (amount : Int64)

/-- The two rows of a transfer, if there are both. -/
def accounts : Except ExecutorError (Option Accounts) :=
  match ctx.tableIndexes.lookup tableName with
  | none => .error (.invalidOperation ("table '" ++ tableName ++ "' has no indexes"))
  | some manager =>
    match manager.findIndexForColumns [indexColumn] with
    | none =>
      .error (.invalidOperation
        ("no index on column '" ++ indexColumn ++ "' of table '" ++ tableName ++ "'"))
    | some indexName => do
      let data ← ctx.lockTable tableName
      match ctx.accountRow text manager indexName data fromKey,
          ctx.accountRow text manager indexName data toKey with
      | some fromId, some toId => do
        let senderBalance ← data.readBalance balanceColIdx fromId
        let receiverBalance ← data.readBalance balanceColIdx toId
        return some { data, fromId, toId, senderBalance, receiverBalance }
      | _, _ => return none

/-- Atomically transfer an amount between two rows located by an indexed equality column. -/
def executeTransferIndexed : ExecutionContext × Except ExecutorError TransferOutcome :=
  match ctx.accounts text tableName indexColumn fromKey toKey balanceColIdx with
  | .error e => (ctx, .error e)
  | .ok none => (ctx, .ok .accountMissing)
  | .ok (some a) =>
    if a.senderBalance < amount then (ctx, .ok .insufficientFunds)
    else
      let debited := a.data.setCell a.fromId balanceColIdx (.integer (a.senderBalance - amount))
      let credited :=
        debited.setCell a.toId balanceColIdx (.integer (a.receiverBalance + amount))
      ({ ctx with tables := ctx.tables.modify tableName fun _ => ⟨credited, false⟩ },
        .ok .committed)

end ExecutionContext

/-! ## What a transfer should do -/

def balanceOf : Option Value → ℤ
  | some (.integer n) => n.toInt
  | _ => 0

def TableData.total (data : TableData) (balanceColIdx : ℕ) (rows : Finset ℕ) : ℤ :=
  ∑ i ∈ rows, balanceOf (data.cell i balanceColIdx)

/-- The balances have moved between two rows, so that their sum is the same whatever other rows are
counted, and nothing else has changed. -/
structure Moved (before after : TableData) (fromId toId balanceColIdx : ℕ) : Prop where
  total : ∀ rows, fromId ∈ rows → toId ∈ rows →
    after.total balanceColIdx rows = before.total balanceColIdx rows
  sender : ∃ n, after.readBalance balanceColIdx fromId = .ok n ∧ 0 ≤ n.toInt
  cell : ∀ i j, j ≠ balanceColIdx ∨ i ≠ fromId ∧ i ≠ toId → after.cell i j = before.cell i j
  lengths : after.rows.map List.length = before.rows.map List.length
  rest : { after with rows := before.rows } = before

/-- The new balances are those of the integers. -/
def Accounts.Exact (a : Accounts) (amount : Int64) : Prop :=
  (a.senderBalance - amount).toInt = a.senderBalance.toInt - amount.toInt ∧
    (a.receiverBalance + amount).toInt = a.receiverBalance.toInt + amount.toInt

section Statement

variable (ctx : ExecutionContext) (text : DebugText) (tableName indexColumn : String)
  (fromKey toKey : Value) (balanceColIdx : ℕ) (amount : Int64)

/-- A transfer that commits moves a balance and does not overflow; one that does not commit changes
nothing. -/
def Conserves : Prop :=
  let done := ctx.executeTransferIndexed text tableName indexColumn fromKey toKey balanceColIdx
    amount
  if done.2 = .ok .committed then
    ∃ a after, ctx.accounts text tableName indexColumn fromKey toKey balanceColIdx = .ok (some a) ∧
      done.1 = { ctx with tables := ctx.tables.modify tableName fun _ => ⟨after, false⟩ } ∧
      ctx.lockTable tableName = .ok a.data ∧ Moved a.data after a.fromId a.toId balanceColIdx ∧
      a.Exact amount
  else done.1 = ctx

/-- If the sender has the amount, the two rows are different or the amount is zero, and the new
balances are in the range of the integers. -/
def Transferable : Prop :=
  ∀ a, ctx.accounts text tableName indexColumn fromKey toKey balanceColIdx = .ok (some a) →
    amount ≤ a.senderBalance →
      (a.fromId ≠ a.toId ∨ amount = 0) ∧
      a.senderBalance.toInt - amount.toInt < 2 ^ 63 ∧
      -2 ^ 63 ≤ a.receiverBalance.toInt + amount.toInt ∧
      a.receiverBalance.toInt + amount.toInt < 2 ^ 63

end Statement

/-! ## Cells -/

namespace TableData

variable {data : TableData} {i j i' j' : ℕ}

/-- A cell is written, if it is there, and the others stay. -/
theorem cell_setCell (value : Value) : (data.setCell i j value).cell i' j' =
    if i' = i ∧ j' = j then (data.cell i j).map fun _ => value else data.cell i' j' := by
  rw [cell, setCell, cell, cell, List.getElem?_modify]
  by_cases hi : i = i'
  · subst hi
    cases data.rows[i]? with
    | none => exact (ite_self _).symm
    | some row =>
      change (if i = i then row.set j value else row)[j']? = _
      rw [if_pos rfl, List.getElem?_set]
      by_cases hj : j' = j
      · subst hj
        rw [if_pos rfl, if_pos (⟨rfl, rfl⟩ : i = i ∧ j' = j')]
        change _ = (row[j']?).map fun _ => value
        split_ifs with hlt
        · rw [List.getElem?_eq_getElem hlt, Option.map_some]
        · rw [List.getElem?_eq_none (not_lt.mp hlt), Option.map_none]
      · rw [if_neg fun h => hj h.symm, if_neg fun h => hj h.2]
        rfl
  · rw [if_neg fun h => hi h.1.symm]
    cases data.rows[i']? with
    | none => rfl
    | some row =>
      change (if i = i' then row.set j value else row)[j']? = _
      rw [if_neg hi]
      rfl

theorem lengths_setCell (value : Value) :
    (data.setCell i j value).rows.map List.length = data.rows.map List.length := by
  refine List.ext_getElem? fun k => ?_
  rw [setCell, List.getElem?_map, List.getElem?_map, List.getElem?_modify]
  cases data.rows[k]? with
  | none => rfl
  | some row =>
    change some (if i = k then row.set j value else row).length = some row.length
    split_ifs
    · rw [List.length_set]
    · rfl

theorem readBalance_eq_ok_iff {id : ℕ} {n : Int64} :
    data.readBalance j id = .ok n ↔ data.cell id j = some (.integer n) := by
  rw [readBalance]
  split
  · rename_i m hcell
    rw [hcell]
    rw [Except.ok.injEq, Option.some.injEq, Value.integer.injEq]
  · rename_i hcell
    exact iff_of_false (fun h => nomatch h) fun h => hcell n h

end TableData

/-! ## The rows of a transfer -/

section Accounts

variable {ctx : ExecutionContext} {text : DebugText} {tableName indexColumn : String}
  {fromKey toKey : Value} {balanceColIdx : ℕ} {amount : Int64} {a : Accounts}

theorem accounts_spec
    (h : ctx.accounts text tableName indexColumn fromKey toKey balanceColIdx = .ok (some a)) :
    ctx.lockTable tableName = .ok a.data ∧
      a.data.cell a.fromId balanceColIdx = some (.integer a.senderBalance) ∧
      a.data.cell a.toId balanceColIdx = some (.integer a.receiverBalance) := by
  rw [ExecutionContext.accounts] at h
  cases hindexes : ctx.tableIndexes.lookup tableName with
  | none =>
    rw [hindexes] at h
    cases h
  | some manager =>
    rw [hindexes] at h
    dsimp only at h
    cases hindex : manager.findIndexForColumns [indexColumn] with
    | none =>
      rw [hindex] at h
      cases h
    | some indexName =>
      rw [hindex] at h
      dsimp only at h
      cases hdata : ctx.lockTable tableName with
      | error e =>
        rw [hdata] at h
        cases h
      | ok data =>
        rw [hdata] at h
        change (match ctx.accountRow text manager indexName data fromKey,
          ctx.accountRow text manager indexName data toKey with
          | some fromId, some toId => _
          | _, _ => _) = _ at h
        split at h
        · rename_i fromId toId hfrom hto
          cases hsender : data.readBalance balanceColIdx fromId with
          | error e =>
            rw [hsender] at h
            cases h
          | ok senderBalance =>
            rw [hsender] at h
            cases hreceiver : data.readBalance balanceColIdx toId with
            | error e =>
              rw [hreceiver] at h
              cases h
            | ok receiverBalance =>
              rw [hreceiver] at h
              obtain rfl := Option.some.inj (Except.ok.inj h)
              exact ⟨rfl, TableData.readBalance_eq_ok_iff.mp hsender,
                TableData.readBalance_eq_ok_iff.mp hreceiver⟩
        · cases h

def Accounts.moved (a : Accounts) (balanceColIdx : ℕ) (amount : Int64) : TableData :=
  (a.data.setCell a.fromId balanceColIdx (.integer (a.senderBalance - amount))).setCell a.toId
    balanceColIdx (.integer (a.receiverBalance + amount))

theorem cell_moved
    (hsender : a.data.cell a.fromId balanceColIdx = some (.integer a.senderBalance))
    (hreceiver : a.data.cell a.toId balanceColIdx = some (.integer a.receiverBalance)) (i : ℕ) :
    (a.moved balanceColIdx amount).cell i balanceColIdx =
      if i = a.toId then some (.integer (a.receiverBalance + amount))
      else if i = a.fromId then some (.integer (a.senderBalance - amount))
      else a.data.cell i balanceColIdx := by
  rw [Accounts.moved, TableData.cell_setCell, TableData.cell_setCell, TableData.cell_setCell]
  simp only [and_true, hsender, hreceiver, Option.map_some]
  by_cases hto : i = a.toId
  · rw [if_pos hto, if_pos hto]
    split_ifs <;> rfl
  · rw [if_neg hto, if_neg hto]

/-- A step of the integers is exact just if it stays in their range. -/
theorem exact_iff (h : amount ≤ a.senderBalance) : a.Exact amount ↔
    a.senderBalance.toInt - amount.toInt < 2 ^ 63 ∧
      -2 ^ 63 ≤ a.receiverBalance.toInt + amount.toInt ∧
      a.receiverBalance.toInt + amount.toInt < 2 ^ 63 := by
  have hle : amount.toInt ≤ a.senderBalance.toInt := Int64.le_iff_toInt_le.mp h
  constructor
  · rintro ⟨hsub, hadd⟩
    have hs := (a.senderBalance - amount).toInt_lt
    have hr := (a.receiverBalance + amount).toInt_lt
    have hr' := (a.receiverBalance + amount).le_toInt
    rw [hsub] at hs
    rw [hadd] at hr hr'
    exact ⟨hs, hr', hr⟩
  · rintro ⟨hs, hr', hr⟩
    refine ⟨?_, ?_⟩
    · rw [Int64.toInt_sub]
      exact Int.bmod_eq_of_le (by omega) (by omega)
    · rw [Int64.toInt_add]
      exact Int.bmod_eq_of_le (by omega) (by omega)

/-- What a transfer does to each balance, if no row pays itself. -/
theorem balanceOf_moved (hrows : a.fromId ≠ a.toId ∨ amount = 0) (hexact : a.Exact amount)
    (hsender : a.data.cell a.fromId balanceColIdx = some (.integer a.senderBalance))
    (hreceiver : a.data.cell a.toId balanceColIdx = some (.integer a.receiverBalance)) (i : ℕ) :
    balanceOf ((a.moved balanceColIdx amount).cell i balanceColIdx) =
      balanceOf (a.data.cell i balanceColIdx) + (if i = a.toId then amount.toInt else 0) -
        if i = a.fromId then amount.toInt else 0 := by
  have hcell := @cell_moved balanceColIdx amount a hsender hreceiver i
  rw [hcell]
  by_cases hto : i = a.toId
  · subst hto
    rw [if_pos rfl, if_pos rfl, hreceiver, balanceOf, balanceOf, hexact.2]
    rcases hrows with hne | rfl
    · rw [if_neg hne.symm]
      omega
    · rw [Int64.toInt_zero, ite_self]
      omega
  · rw [if_neg hto, if_neg hto]
    by_cases hfrom : i = a.fromId
    · subst hfrom
      rw [if_pos rfl, if_pos rfl, hsender, balanceOf, balanceOf, hexact.1]
      omega
    · rw [if_neg hfrom, if_neg hfrom]
      omega

/-- If no row pays itself, an exact transfer moves the balances. -/
theorem moved_of_exact (hrows : a.fromId ≠ a.toId ∨ amount = 0)
    (hsender : a.data.cell a.fromId balanceColIdx = some (.integer a.senderBalance))
    (hreceiver : a.data.cell a.toId balanceColIdx = some (.integer a.receiverBalance))
    (hle : amount ≤ a.senderBalance) (hexact : a.Exact amount) :
    Moved a.data (a.moved balanceColIdx amount) a.fromId a.toId balanceColIdx where
  total rows hfrom hto := by
    rw [TableData.total, TableData.total,
      Finset.sum_congr rfl fun i _ => balanceOf_moved hrows hexact hsender hreceiver i,
      Finset.sum_sub_distrib, Finset.sum_add_distrib, Finset.sum_ite_eq', Finset.sum_ite_eq',
      if_pos hfrom, if_pos hto, add_sub_cancel_right]
  sender := by
    have hle : amount.toInt ≤ a.senderBalance.toInt := Int64.le_iff_toInt_le.mp hle
    have hcell := @cell_moved balanceColIdx amount a hsender hreceiver a.fromId
    rcases eq_or_ne a.fromId a.toId with heq | hne
    · -- the row pays itself nothing
      obtain rfl := hrows.resolve_left (not_not_intro heq)
      have hsame : a.receiverBalance = a.senderBalance := by
        rw [heq, hreceiver] at hsender
        exact Value.integer.inj (Option.some.inj hsender)
      rw [if_pos heq, hsame] at hcell
      refine ⟨_, TableData.readBalance_eq_ok_iff.mpr hcell, ?_⟩
      rw [← hsame, hexact.2, hsame]
      rw [Int64.toInt_zero] at hle ⊢
      omega
    · rw [if_neg hne, if_pos rfl] at hcell
      refine ⟨_, TableData.readBalance_eq_ok_iff.mpr hcell, ?_⟩
      rw [hexact.1]
      omega
  cell i j h := by
    rw [Accounts.moved, TableData.cell_setCell, if_neg, TableData.cell_setCell, if_neg]
    · rintro ⟨rfl, rfl⟩
      exact h.elim (fun hj => hj rfl) fun hi => hi.1 rfl
    · rintro ⟨rfl, rfl⟩
      exact h.elim (fun hj => hj rfl) fun hi => hi.2 rfl
  lengths := by rw [Accounts.moved, TableData.lengths_setCell, TableData.lengths_setCell]
  rest := rfl

theorem amount_eq_zero_of_moved (hrows : a.fromId = a.toId) (hexact : a.Exact amount)
    (hreceiver : a.data.cell a.toId balanceColIdx = some (.integer a.receiverBalance))
    (hsender : a.data.cell a.fromId balanceColIdx = some (.integer a.senderBalance))
    (hmoved : Moved a.data (a.moved balanceColIdx amount) a.fromId a.toId balanceColIdx) :
    amount = 0 := by
  have hcell := @cell_moved balanceColIdx amount a hsender hreceiver a.toId
  have htotal := hmoved.total {a.toId} (Finset.mem_singleton.mpr hrows)
    (Finset.mem_singleton_self _)
  rw [TableData.total, TableData.total, Finset.sum_singleton, Finset.sum_singleton, hcell,
    if_pos rfl, hreceiver, balanceOf, balanceOf, hexact.2] at htotal
  refine Int64.toInt_inj.mp ?_
  rw [Int64.toInt_zero]
  omega

theorem execute_of_le
    (h : ctx.accounts text tableName indexColumn fromKey toKey balanceColIdx = .ok (some a))
    (hle : amount ≤ a.senderBalance) :
    ctx.executeTransferIndexed text tableName indexColumn fromKey toKey balanceColIdx amount =
      ({ ctx with tables := ctx.tables.modify tableName fun _ =>
          ⟨a.moved balanceColIdx amount, false⟩ }, .ok .committed) := by
  rw [ExecutionContext.executeTransferIndexed, h]
  exact if_neg (Int64.not_lt.mpr hle)

theorem execute_of_not_le
    (h : ∀ a, ctx.accounts text tableName indexColumn fromKey toKey balanceColIdx =
      .ok (some a) → ¬amount ≤ a.senderBalance) :
    (ctx.executeTransferIndexed text tableName indexColumn fromKey toKey balanceColIdx
        amount).2 ≠ .ok .committed ∧
      (ctx.executeTransferIndexed text tableName indexColumn fromKey toKey balanceColIdx
        amount).1 = ctx := by
  rw [ExecutionContext.executeTransferIndexed]
  split
  · exact ⟨fun heq => (nomatch heq), rfl⟩
  · exact ⟨fun heq => (nomatch heq), rfl⟩
  · rename_i a ha
    rw [if_pos (Int64.not_le.mp (h a ha))]
    exact ⟨fun heq => (nomatch heq), rfl⟩

theorem eq_of_modify_eq {data moved after : TableData} (hlock : ctx.lockTable tableName = .ok data)
    (h : ctx.tables.modify tableName (fun _ => ⟨moved, false⟩) =
      ctx.tables.modify tableName fun _ => ⟨after, false⟩) : moved = after := by
  have hlookup := congrArg (AList.lookup tableName) h
  rw [Table.lookup_modify, Table.lookup_modify, if_pos rfl, if_pos rfl] at hlookup
  rw [ExecutionContext.lockTable] at hlock
  cases hshared : ctx.tables.lookup tableName with
  | none =>
    rw [hshared] at hlock
    cases hlock
  | some shared =>
    rw [hshared] at hlookup
    exact congrArg SharedTable.data (Option.some.inj hlookup)

/-- A transfer conserves the balances exactly if, whenever the sender has the amount, the rows are
different or the amount is zero, and the new balances are in the range of the integers. -/
theorem conserves_iff (ctx : ExecutionContext) (text : DebugText) (tableName indexColumn : String)
    (fromKey toKey : Value) (balanceColIdx : ℕ) (amount : Int64) :
    Conserves ctx text tableName indexColumn fromKey toKey balanceColIdx amount ↔
      Transferable ctx text tableName indexColumn fromKey toKey balanceColIdx amount := by
  rw [Conserves, Transferable]
  by_cases hcommits : ∃ a, ctx.accounts text tableName indexColumn fromKey toKey balanceColIdx =
      .ok (some a) ∧ amount ≤ a.senderBalance
  · obtain ⟨a, hfound, hle⟩ := hcommits
    obtain ⟨hlock, hsender, hreceiver⟩ := accounts_spec hfound
    rw [execute_of_le hfound hle, if_pos rfl]
    constructor
    · rintro ⟨a', after, hfound', hctx, -, hmoved, hexact⟩ a'' hfound'' -
      obtain rfl := Option.some.inj (Except.ok.inj (hfound.symm.trans hfound'))
      obtain rfl := Option.some.inj (Except.ok.inj (hfound.symm.trans hfound''))
      obtain rfl := eq_of_modify_eq hlock (congrArg ExecutionContext.tables hctx)
      refine ⟨?_, (exact_iff hle).mp hexact⟩
      rcases eq_or_ne a.fromId a.toId with heq | hne
      · exact Or.inr (amount_eq_zero_of_moved heq hexact hreceiver hsender hmoved)
      · exact Or.inl hne
    · intro h
      obtain ⟨hrows, hrange⟩ := h a hfound hle
      have hexact : a.Exact amount := (exact_iff hle).mpr hrange
      exact ⟨a, a.moved balanceColIdx amount, hfound, rfl, hlock,
        moved_of_exact hrows hsender hreceiver hle hexact, hexact⟩
  · have hnot := fun a h hle => hcommits ⟨a, h, hle⟩
    obtain ⟨hresult, hctx⟩ := execute_of_not_le hnot
    rw [if_neg hresult]
    exact iff_of_true hctx fun a h hle => absurd hle (hnot a h)

end Accounts

/-- One row, which has the key 1 and the balance 30. -/
def oneRow : TableData where
  name := "users"
  columns := ["id", "balance"]
  rows := [[.integer 1, .integer 30]]
  rowCreatedVersion := [1]
  rowDeletedVersion := [0]

/-- A table with this row, and its index. -/
def oneAccount : ExecutionContext :=
  { ExecutionContext.new with
    tables := AList.singleton "users" { data := oneRow, poisoned := false }
    tableIndexes := AList.singleton "users"
      ⟨AList.singleton "idx_users_id"
        { name := "idx_users_id", columns := ["id"], unique := false, tree := [([.int 1], [0])] }⟩ }

/-- Whoever sends 5 to themselves has 5 more than before. -/
theorem not_conserves : ¬ ∀ (ctx : ExecutionContext) (text : DebugText)
    (tableName indexColumn : String) (fromKey toKey : Value) (balanceColIdx : ℕ) (amount : Int64),
    Conserves ctx text tableName indexColumn fromKey toKey balanceColIdx amount := by
  intro h
  have hcons := h oneAccount ⟨fun _ => "", fun _ => ""⟩ "users" "id" (.integer 1) (.integer 1) 1 5
  have hfound : oneAccount.accounts ⟨fun _ => "", fun _ => ""⟩ "users" "id" (.integer 1)
      (.integer 1) 1 = .ok (some ⟨oneRow, 0, 0, 30, 30⟩) := rfl
  rw [Conserves, execute_of_le hfound (by decide), if_pos rfl] at hcons
  obtain ⟨a, after, hfound', hctx, hlock, hmoved, hexact⟩ := hcons
  obtain rfl := Option.some.inj (Except.ok.inj (hfound.symm.trans hfound'))
  obtain rfl := eq_of_modify_eq hlock (congrArg ExecutionContext.tables hctx)
  exact absurd (amount_eq_zero_of_moved rfl hexact rfl rfl hmoved) (by decide)

end Query

end AegisDB
