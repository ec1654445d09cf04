import AegisDB.Library.Stepwise
import AegisDB.Storage.LostUpdate

/-!
# Serializable transactions

A call that commits a running transaction of the level serializable does not return: it holds the
table of the transactions while its validation waits for that table.  So nothing that is begun at
this level is ever committed, and what is committed has a serial order because it is nothing.
-/

namespace AegisDB

namespace Storage

open SnapshotHistory

/-! ## Serial orders -/

/-- An operation that a transaction has carried out. -/
inductive Operation
  | read (txId : ℕ) (key : VersionKey) (result : Option Bytes)
  | write (txId : ℕ) (key : VersionKey) (value : Option Bytes)

namespace Operation

def txId : Operation → ℕ
  | read txId _ _ | write txId _ _ => txId

/-- What the operations leave under a key. -/
def leave (operations : List Operation) (key : VersionKey) : Option Bytes :=
  operations.foldl (fun left operation =>
    match operation with
    | read _ _ _ => left
    | write _ key' value => if key' = key then value else left) none

/-- A read returns what the operations before it leave. -/
def ReadsFrom (before : List Operation) : Operation → Prop
  | read _ key result => result = leave before key
  | write _ _ _ => True

/-- One transaction after the other carries out its operations. -/
def serial (order : List ℕ) (operations : List Operation) : List Operation :=
  order.flatMap fun t => operations.filter fun operation => operation.txId = t

end Operation

/-! ## Traces -/

/-- A run of the transaction manager, and the operations that have been carried out. -/
structure TransactionTrace where
  run : TransactionRun := {}
  operations : List Operation := []

namespace TransactionTrace

/-- The operation that a call carries out, if it succeeds. -/
def carriedOut (m : TransactionManager) : TransactionAction → Option Operation
  | .read txId key =>
    match m.read txId key with
    | .ok result => some (.read txId key result)
    | .error _ => none
  | .write txId key data =>
    match (m.write txId key data).2 with
    | .ok () => some (.write txId key (some data))
    | .error _ => none
  | .delete txId key =>
    match (m.delete txId key).2 with
    | .ok () => some (.write txId key none)
    | .error _ => none
  | _ => none

/-- One call; there is no next state if the call does not return. -/
def step (s : TransactionTrace) (a : TransactionAction) : Option TransactionTrace :=
  (s.run.step a).map fun run =>
    { run := run
      operations := s.operations ++ (carriedOut s.run.manager a).toList }

/-- A new transaction manager and the calls that can be made. -/
def system : System TransactionTrace TransactionAction where
  init := {}
  step := step

/-- The transactions that have been committed are equivalent to a serial order of them: each read
returns what it would return there. -/
def Serializable (s : TransactionTrace) : Prop :=
  ∃ order : List ℕ, order.Nodup ∧ (∀ t, t ∈ order ↔ Committed s.run.history t) ∧
    Stepwise Operation.ReadsFrom (Operation.serial order s.operations)

/-- All transactions are serializable, and none has been committed. -/
structure SerializableInv (s : TransactionRun) : Prop where
  levels : ∀ t tx, s.manager.transactions.lookup t = some tx → tx.isolationLevel = .serializable
  uncommitted : ∀ t, ¬ Committed s.history t

variable {s s' : TransactionRun} {a : TransactionAction}

theorem SerializableInv.insert (hs : SerializableInv s) {t : ℕ} {tx : Transaction}
    (htx : tx.isolationLevel = .serializable)
    (htrans : s'.manager.transactions = s.manager.transactions.insert t tx)
    (hhistory : ∀ t, Committed s'.history t → Committed s.history t) : SerializableInv s' := by
  refine ⟨fun t' tx' ht' => ?_, fun t' ht' => hs.uncommitted t' (hhistory t' ht')⟩
  rw [htrans, Table.lookup_insert] at ht'
  split_ifs at ht'
  · obtain rfl := Option.some.inj ht'
    exact htx
  · exact hs.levels t' tx' ht'

theorem SerializableInv.write (hs : SerializableInv s) (txId : ℕ) (key : VersionKey)
    (w : Option Bytes) :
    SerializableInv (s.record (.write txId key w) (s.manager.write txId key (bytes w))) := by
  rcases s.manager.write_cases txId key (bytes w) with ⟨e, heq⟩ | ⟨tx, m', htx, -, htrans, -, -,
    ⟨e, heq, -⟩ | ⟨heq, -⟩⟩
  · rw [heq]
    exact hs
  all_goals
    have hlevel : (tx.addToWriteSet key).isolationLevel = .serializable := hs.levels txId tx htx
    rw [heq]
    refine hs.insert hlevel htrans fun t ht => ?_
  · exact ht
  · exact ((committed_cons _ _ _).mp ht).resolve_left fun hmem => nomatch hmem

theorem commit_eq_none_iff (hs : SerializableInv s) (txId : ℕ) :
    s.manager.commit txId = none ↔ s.IsActive txId := by
  rw [TransactionManager.commit_eq]
  unfold TransactionRun.IsActive
  dsimp only
  cases htx : s.manager.transactions.lookup txId with
  | none => simp
  | some tx =>
    have hlevel := hs.levels txId tx htx
    simp only [hlevel, Transaction.isActive, Option.some.injEq]
    split_ifs with hstate <;> simp_all

/-- Transactions stay serializable, and none is ever committed. -/
theorem serializableInv_step (hs : SerializableInv s)
    (ha : TransactionRun.BeginsAt .serializable a) (hstep : s.step a = some s') :
    SerializableInv s' := by
  cases a with
  | begin isolationLevel =>
    obtain rfl := Option.some.inj hstep
    refine hs.insert (ha _ rfl) rfl fun t ht => ?_
    exact ((committed_cons _ _ _).mp ht).resolve_left fun hmem => nomatch hmem
  | read txId key =>
    obtain rfl := Option.some.inj hstep
    exact hs
  | write txId key data =>
    obtain rfl := Option.some.inj hstep
    exact hs.write txId key (some data)
  | delete txId key =>
    obtain rfl := Option.some.inj hstep
    exact hs.write txId key none
  | commit txId =>
    obtain ⟨done, hdone, rfl⟩ := Option.map_eq_some_iff.mp hstep
    rw [TransactionManager.commit_eq] at hdone
    dsimp only at hdone
    split at hdone
    · obtain rfl := Option.some.inj hdone
      exact ⟨hs.levels, hs.uncommitted⟩
    · next tx htx =>
      rw [if_pos (hs.levels txId tx htx)] at hdone
      split_ifs at hdone
      obtain rfl := Option.some.inj hdone
      exact ⟨hs.levels, hs.uncommitted⟩
  | abort txId =>
    obtain rfl := Option.some.inj hstep
    unfold TransactionManager.abort
    split
    · exact hs
    · next tx htx =>
      have hlevel : ({ tx with state := .aborted } : Transaction).isolationLevel = .serializable :=
        hs.levels txId tx htx
      refine hs.insert hlevel rfl fun t ht => ?_
      exact ((committed_cons _ _ _).mp ht).resolve_left fun hmem => nomatch hmem
  | runGc =>
    obtain rfl := Option.some.inj hstep
    refine ⟨fun t tx htx => ?_, hs.uncommitted⟩
    have hfilter : (s.manager.transactions.filterValues fun _ tx =>
        !TransactionManager.cleanable s.manager.getMinActiveTimestamp tx).lookup t = some tx := htx
    exact hs.levels t tx (Table.lookup_of_lookup_filterValues hfilter)

theorem commit_returns (s : TransactionTrace) (txId : ℕ) :
    (∃ s', s.step (.commit txId) = some s') ↔ s.run.manager.commit txId ≠ none := by
  have hstep : s.step (.commit txId) =
      ((s.run.manager.commit txId).map (s.run.record (.commit txId))).map fun run =>
        { run := run
          operations := s.operations ++ (carriedOut s.run.manager (.commit txId)).toList } := rfl
  rw [hstep]
  generalize s.run.manager.commit txId = done
  cases done <;> simp

theorem serializableInv {s : TransactionTrace}
    (hs : system.Reach (fun _ a => TransactionRun.BeginsAt .serializable a) s) :
    SerializableInv s.run := by
  refine System.Reach.invariant (P := fun s => SerializableInv s.run) ?_
    (fun s a s' _ h ha hstep => ?_) hs
  · refine ⟨fun t tx ht => ?_, fun t ⟨_, he, _⟩ => nomatch he⟩
    have hnone : (∅ : Table ℕ Transaction).lookup t = none := AList.lookup_empty t
    exact absurd (hnone.symm.trans ht) (by simp)
  · obtain ⟨run, hrun, rfl⟩ := Option.map_eq_some_iff.mp hstep
    exact serializableInv_step h ha hrun

/-- In every run of serializable transactions, a commit returns exactly if its transaction is not
running, and what is committed, which is nothing, is equivalent to a serial order. -/
theorem serializable_commit {s : TransactionTrace}
    (hs : system.Reach (fun _ a => TransactionRun.BeginsAt .serializable a) s) :
    (∀ txId, (∃ s', s.step (.commit txId) = some s') ↔ ¬ s.run.IsActive txId) ∧
      s.Serializable := by
  have hinv := serializableInv hs
  constructor
  · intro txId
    rw [commit_returns, ← commit_eq_none_iff hinv]
  · refine ⟨[], List.nodup_nil, fun t => ?_, Stepwise.nil⟩
    exact ⟨fun h => absurd h List.not_mem_nil, fun h => absurd h (hinv.uncommitted t)⟩

/-- The first of two transactions is aborted: to commit it returns, with an error; to commit the
second one does not. -/
theorem serializable_commit_aborted : ∃ s : TransactionTrace,
    (∃ s', s.step (.commit 1) = some s') ∧ (¬ ∃ s', s.step (.commit 2) = some s') ∧
      s.Serializable := by
  have hrun : (system.run (fun _ a => TransactionRun.BeginsAt .serializable a)
      [.begin .serializable, .write 1 ⟨1, 1⟩ [7], .abort 1, .begin .serializable,
        .read 2 ⟨1, 1⟩]).map (fun s : TransactionTrace =>
          decide (¬ s.run.IsActive 1 ∧ s.run.IsActive 2)) = some true := by
    decide +kernel
  obtain ⟨s, hs, hactive⟩ := Option.map_eq_some_iff.mp hrun
  obtain ⟨h₁, h₂⟩ := of_decide_eq_true hactive
  obtain ⟨hreturns, hserial⟩ := serializable_commit (System.reach_of_run hs)
  exact ⟨s, (hreturns 1).mpr h₁, fun h => (hreturns 2).mp h h₂, hserial⟩

/-- The first transaction of all cannot be committed. -/
theorem not_serializable_commit : ¬ ∀ s : TransactionTrace,
    system.Reach (fun _ a => TransactionRun.BeginsAt .serializable a) s →
      ∀ txId, ∃ s', s.step (.commit txId) = some s' := by
  intro hall
  have hrun : (system.run (fun _ a => TransactionRun.BeginsAt .serializable a)
      [.begin .serializable]).map (fun s : TransactionTrace =>
        (s.run.manager.commit 1).isNone) = some true := by
    decide +kernel
  obtain ⟨s, hs, hnone⟩ := Option.map_eq_some_iff.mp hrun
  exact (commit_returns s 1).mp (hall s (System.reach_of_run hs) 1)
    (Option.isNone_iff_eq_none.mp hnone)

end TransactionTrace

end Storage

end AegisDB
