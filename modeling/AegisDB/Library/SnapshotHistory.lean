import Mathlib.Tactic

/-!
# What a snapshot read should return

A history lists what transactions over keys and values have done, newest event first.  It
determines what a transaction has written itself (`lastWrite`), what the committed transactions
have left under a key (`latest`), and what had happened before a transaction began (`before`).
A snapshot read returns the own write if there is one, and otherwise what had been left when the
transaction began (`answer`).
-/

namespace AegisDB

/-- An event of a history of transactions `T` over keys `K` and values `V`. -/
inductive SnapshotEvent (T K V : Type*)
  | begin (t : T)
  /-- A transaction writes a value, or deletes what is there. -/
  | write (t : T) (k : K) (v : Option V)
  | commit (t : T)
  | abort (t : T)

def SnapshotEvent.commits {T K V : Type*} : SnapshotEvent T K V → Option T
  | .commit t => some t
  | _ => none

namespace SnapshotHistory

variable {T K V : Type*} [DecidableEq T] [DecidableEq K]

def lastWrite : List (SnapshotEvent T K V) → T → K → Option (Option V)
  | [], _, _ => none
  | .write t k v :: h, t', k' => if t = t' ∧ k = k' then some v else lastWrite h t' k'
  | _ :: h, t, k => lastWrite h t k

/-- What the last transaction that committed a write to a key has left there. -/
def latest : List (SnapshotEvent T K V) → K → Option (Option V)
  | [], _ => none
  | .commit t :: h, k => (lastWrite h t k).or (latest h k)
  | _ :: h, k => latest h k

omit [DecidableEq K] in
/-- What had happened before a transaction began. -/
def before : List (SnapshotEvent T K V) → T → List (SnapshotEvent T K V)
  | [], _ => []
  | .begin t :: h, t' => if t = t' then h else before h t'
  | _ :: h, t => before h t

/-- What a transaction should read: its own last write, or else what was committed last before it
began. -/
def answer (h : List (SnapshotEvent T K V)) (t : T) (k : K) : Option V :=
  match lastWrite h t k with
  | some v => v
  | none => (latest (before h t) k).join

omit [DecidableEq T] [DecidableEq K] in
def Committed (h : List (SnapshotEvent T K V)) (t : T) : Prop :=
  ∃ e ∈ h, t ∈ e.commits

instance (h : List (SnapshotEvent T K V)) (t : T) : Decidable (Committed h t) :=
  inferInstanceAs (Decidable (∃ e ∈ h, _))

def Wrote (h : List (SnapshotEvent T K V)) (t : T) (k : K) : Prop :=
  (lastWrite h t k).isSome = true

instance (h : List (SnapshotEvent T K V)) (t : T) (k : K) : Decidable (Wrote h t k) :=
  inferInstanceAs (Decidable (_ = true))

omit [DecidableEq K] in
/-- Each of two transactions began before the other one committed. -/
def Concurrent (h : List (SnapshotEvent T K V)) (t t' : T) : Prop :=
  ¬ Committed (before h t) t' ∧ ¬ Committed (before h t') t

/-- No two concurrent transactions that have written one key have both been committed. -/
def NoLostUpdate (h : List (SnapshotEvent T K V)) : Prop :=
  ∀ t t' k, t ≠ t' → Concurrent h t t' → Wrote h t k → Wrote h t' k →
    ¬ (Committed h t ∧ Committed h t')

variable (h : List (SnapshotEvent T K V)) (t t' : T) (k k' : K) (v : Option V)

@[simp] theorem lastWrite_begin : lastWrite (.begin t :: h) t' k = lastWrite h t' k := rfl

@[simp] theorem lastWrite_commit : lastWrite (.commit t :: h) t' k = lastWrite h t' k := rfl

@[simp] theorem lastWrite_abort : lastWrite (.abort t :: h) t' k = lastWrite h t' k := rfl

theorem lastWrite_write :
    lastWrite (.write t k v :: h) t' k' = if t = t' ∧ k = k' then some v else lastWrite h t' k' :=
  rfl

@[simp] theorem latest_begin : latest (.begin t :: h) k = latest h k := rfl

@[simp] theorem latest_write : latest (.write t k v :: h) k' = latest h k' := rfl

@[simp] theorem latest_abort : latest (.abort t :: h) k = latest h k := rfl

theorem latest_commit : latest (.commit t :: h) k = (lastWrite h t k).or (latest h k) := rfl

omit [DecidableEq K]

theorem before_begin : before (.begin t :: h) t' = if t = t' then h else before h t' := rfl

@[simp] theorem before_write : before (.write t k v :: h) t' = before h t' := rfl

@[simp] theorem before_commit : before (.commit t :: h) t' = before h t' := rfl

@[simp] theorem before_abort : before (.abort t :: h) t' = before h t' := rfl

theorem committed_cons {T K V : Type*} (e : SnapshotEvent T K V) (h : List (SnapshotEvent T K V))
    (t : T) : Committed (e :: h) t ↔ t ∈ e.commits ∨ Committed h t := by
  simp [Committed]

end SnapshotHistory

end AegisDB
