import Mathlib.Data.List.Basic
import Mathlib.Tactic

/-!
# Programs that may panic

An operation of a machine panics where its result is no number of its type, where a place is not in
a list or where memory would be asked for that no address reaches.  A program on a state gives an
answer or none, and in either case the state is what it has become by then; or it panics.  That it
does not panic is shown together with what its answer and its state are (`Runs`), one operation
after the other.
-/

namespace AegisDB

/-- Why a program panics. -/
inductive Panic where
  | index
  | shift
  | overflow
  | division
  | capacity
  | expect
  | order
deriving DecidableEq

abbrev Checked :=
  Except Panic

namespace Checked

variable {α : Type*}

def index (l : List α) (i : ℕ) : Checked α :=
  match l[i]? with
  | some a => .ok a
  | none => .error .index

def add (width a b : ℕ) : Checked ℕ :=
  if a + b < 2 ^ width then .ok (a + b) else .error .overflow

/-- The difference of two numbers that have no sign. -/
def sub (a b : ℕ) : Checked ℕ :=
  if b ≤ a then .ok (a - b) else .error .overflow

/-- The number of bits by which a number of so many bits is shifted. -/
def shiftAmount (width amount : ℕ) : Checked ℕ :=
  if amount < width then .ok amount else .error .shift

def int64 (n : ℤ) : Checked Int64 :=
  if -2 ^ 63 ≤ n ∧ n < 2 ^ 63 then .ok (Int64.ofInt n) else .error .overflow

def withCapacity (size n : ℕ) : Checked Unit :=
  if n * size ≤ 2 ^ 63 - 1 then .ok () else .error .capacity

theorem index_of_getElem? {l : List α} {i : ℕ} {a : α} (h : l[i]? = some a) :
    index l i = .ok a := by
  rw [index, h]

theorem add_of_lt {width a b : ℕ} (h : a + b < 2 ^ width) : add width a b = .ok (a + b) :=
  if_pos h

theorem sub_of_le {a b : ℕ} (h : b ≤ a) : sub a b = .ok (a - b) :=
  if_pos h

theorem shiftAmount_of_lt {width amount : ℕ} (h : amount < width) :
    shiftAmount width amount = .ok amount :=
  if_pos h

theorem int64_of_bounds {n : ℤ} (h : -2 ^ 63 ≤ n ∧ n < 2 ^ 63) : int64 n = .ok (Int64.ofInt n) :=
  if_pos h

end Checked

def Program (σ α : Type) :=
  σ → Checked (Option α × σ)

namespace Program

variable {σ α β : Type}

def answer (a : α) : Program σ α :=
  fun s => .ok (some a, s)

def stop : Program σ α :=
  fun s => .ok (none, s)

/-- One program after the other, unless the first has no answer. -/
def andThen (m : Program σ α) (f : α → Program σ β) : Program σ β :=
  fun s =>
    match m s with
    | .error e => .error e
    | .ok (none, s) => .ok (none, s)
    | .ok (some a, s) => f a s

instance : Monad (Program σ) where
  pure := answer
  bind := andThen

def state : Program σ σ :=
  fun s => .ok (some s, s)

def change (f : σ → σ) : Program σ Unit :=
  fun s => .ok (some (), f s)

def check (c : Checked α) : Program σ α :=
  fun s => c.map fun a => (some a, s)

def given (o : Option α) : Program σ α :=
  fun s => .ok (o, s)

/-- The program does not panic, and its answer and its state are as told. -/
def Runs (m : Program σ α) (s : σ) (P : Option α → σ → Prop) : Prop :=
  ∃ o s', m s = .ok (o, s') ∧ P o s'

namespace Runs

variable {m : Program σ α} {f : α → Program σ β} {s : σ} {P : Option α → σ → Prop}
  {Q : Option β → σ → Prop}

theorem answer {a : α} (h : P (some a) s) : Runs (Pure.pure a) s P :=
  ⟨some a, s, rfl, h⟩

theorem stop (h : P none s) : Runs Program.stop s P :=
  ⟨none, s, rfl, h⟩

theorem bind (h : Runs m s P) (hnone : ∀ s', P none s' → Q none s')
    (hsome : ∀ a s', P (some a) s' → Runs (f a) s' Q) : Runs (m >>= f) s Q := by
  obtain ⟨o, s', hm, hP⟩ := h
  cases o with
  | none => exact ⟨none, s', by change Program.andThen m f s = _; rw [andThen, hm], hnone s' hP⟩
  | some a =>
    obtain ⟨o, s'', hf, hQ⟩ := hsome a s' hP
    exact ⟨o, s'', by change Program.andThen m f s = _; rw [andThen, hm]; exact hf, hQ⟩

theorem check {c : Checked α} {a : α} (hc : c = .ok a) (h : Runs (f a) s Q) :
    Runs (Program.check c >>= f) s Q := by
  subst hc
  exact h

end Runs

end Program

end AegisDB
