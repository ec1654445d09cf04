import AegisDB.Library.Binary64
import AegisDB.Library.Json

/-!
# Documents and their values

The value of a field is a JSON value whose numbers are integers or double-precision numbers, and
these two are never equal.  Two values are compared by `==` in filters and in lists of allowed
values, by an order that is defined for some pairs in filters, and by an order that is defined for
all in sorting, where values of different kinds count as equal.
-/

namespace AegisDB

namespace Documents

abbrev DocumentId := String

/-- The numbers of a document. -/
inductive Number where
  | int (n : Int64)
  | float (f : Binary64)
deriving DecidableEq

/-- A document value that can be any JSON-compatible type. -/
abbrev Value := Json Number

namespace Number

def asF64 : Number → Binary64
  | int n => Binary64.ofInt64 n
  | float f => f

/-- Equality of numbers of the same kind; that of double-precision numbers is the arithmetic one. -/
def eq : Number → Number → Bool
  | int n, int m => n == m
  | float f, float g => f.partialCmp g == some .eq
  | _, _ => false

/-- How two numbers compare; an integer is rounded to be compared with the other kind. -/
def partialCmp : Number → Number → Option Ordering
  | int n, int m => some (compare n.toInt m.toInt)
  | a, b => a.asF64.partialCmp b.asF64

end Number

mutual

/-- Equality of values. -/
def valueEq : Value → Value → Bool
  | .null, .null => true
  | .bool a, .bool b => a == b
  | .num a, .num b => a.eq b
  | .str a, .str b => a == b
  | .arr a, .arr b => itemsEq a b
  | .obj a, .obj b => a.length == b.length && fieldsEq a b
  | _, _ => false

def itemsEq : List Value → List Value → Bool
  | [], [] => true
  | v :: a, w :: b => valueEq v w && itemsEq a b
  | _, _ => false

/-- Whether each of some fields is among others with an equal value. -/
def fieldsEq : List (String × Value) → List (String × Value) → Bool
  | [], _ => true
  | (key, v) :: a, b =>
      (match b.lookup key with
        | some w => valueEq v w
        | none => false) && fieldsEq a b

end

/-- How two values compare in a filter, if they do. -/
def compareValues : Value → Value → Option Ordering
  | .num a, .num b => a.partialCmp b
  | .str a, .str b => some (compare a b)
  | .bool a, .bool b => some (compare a b)
  | _, _ => none

/-- How two values compare when documents are sorted. -/
def compareValueInner : Value → Value → Ordering
  | .null, .null => .eq
  | .null, _ => .lt
  | _, .null => .gt
  | .bool a, .bool b => compare a b
  | .num a, .num b => (a.partialCmp b).getD .eq
  | .str a, .str b => compare a b
  | _, _ => .eq

/-- How two values that may be missing compare when documents are sorted: missing ones come last. -/
def compareOptionalValues : Option Value → Option Value → Ordering
  | none, none => .eq
  | none, some _ => .gt
  | some _, none => .lt
  | some a, some b => compareValueInner a b

/-- A document in the document store. -/
structure Document where
  id : DocumentId
  data : List (String × Value)

/-- An index into a list: digits, with a plus sign in front or without. -/
def parseIndex (part : List Char) : Option ℕ :=
  let digits := if part.head? = some '+' then part.tail else part
  if digits ≠ [] ∧ digits.all Char.isDigit then
    some (digits.foldl (fun n c => 10 * n + (c.toNat - '0'.toNat)) 0)
  else none

/-- The value at a path. -/
def getPathParts : List (List Char) → Value → Option Value
  | [], v => some v
  | key :: rest, .obj map => (map.lookup (String.ofList key)).bind (getPathParts rest)
  | key :: rest, .arr arr =>
      ((parseIndex key).bind fun idx => arr[idx]?).bind (getPathParts rest)
  | _ :: _, _ => none

namespace Document

/-- Get a field value; a name with dots is a path. -/
def get (doc : Document) (key : String) : Option Value :=
  if '.' ∈ key.toList then
    match key.toList.splitOn '.' with
    | [] => none
    | first :: rest => (doc.data.lookup (String.ofList first)).bind (getPathParts rest)
  else doc.data.lookup key

def contains (doc : Document) (key : String) : Bool :=
  (doc.get key).isSome

def keys (doc : Document) : List String :=
  doc.data.map Prod.fst

end Document

/-! ## Zeros -/

def OtherZero : Value → Value → Prop
  | .num (.float f), .num (.float g) => f ≠ g ∧ f.magnitude = 0 ∧ g.magnitude = 0
  | _, _ => False

/-- Numbers that compare as equal have one pattern, or are zeros of different signs. -/
theorem eq_or_zero_of_partialCmp {f g : Binary64} (h : f.partialCmp g = some .eq) :
    f = g ∨ f.magnitude = 0 ∧ g.magnitude = 0 := by
  have hcompare : compare f.order g.order = .eq := by
    rw [Binary64.partialCmp] at h
    split_ifs at h
    exact Option.some.inj h
  have horder : f.order = g.order := Int.compare_eq_eq.mp hcompare
  have hf := f.bits.toNat_lt
  have hg := g.bits.toNat_lt
  rw [Binary64.order, Binary64.order, Binary64.isNegative, Binary64.isNegative,
    Binary64.magnitude, Binary64.magnitude] at horder
  rw [Binary64.magnitude, Binary64.magnitude]
  by_cases hbits : f.bits.toNat = g.bits.toNat
  · refine Or.inl ?_
    cases f
    cases g
    exact congrArg Binary64.mk (UInt64.toNat_inj.mp hbits)
  · refine Or.inr ?_
    split_ifs at horder with h₁ h₂ h₂
    all_goals
      simp only [decide_eq_true_eq] at h₁ h₂
      omega

end Documents

end AegisDB
