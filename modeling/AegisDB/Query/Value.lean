import AegisDB.Library.Binary64

/-!
# Values and their comparison

The values of a column, the comparison that every operator of the executor uses, and the text by
which a hash join tells values apart.  The comparison has an answer for every pair: values of
different kinds, values without an order of their own and anything next to NULL count as equal.
-/

namespace AegisDB

namespace Query

/-- A moment in time. -/
structure Timestamp where
  seconds : ℤ
  nanos : ℕ
deriving DecidableEq

/-- A value of a column. -/
inductive Value where
  | null
  | boolean (b : Bool)
  | integer (i : Int64)
  | float (f : Binary64)
  | string (s : String)
  | bytes (b : List UInt8)
  | timestamp (t : Timestamp)
  | array (a : List Value)
  /-- The entries of a hash map, in the order in which it gives them. -/
  | object (o : List (String × Value))

namespace Value

/-! ## Identity -/

mutual

/-- Whether two values are one and the same, down to the bits of their numbers. -/
def same : Value → Value → Bool
  | .null, .null => true
  | .boolean a, .boolean b => a == b
  | .integer a, .integer b => a == b
  | .float a, .float b => a == b
  | .string a, .string b => a == b
  | .bytes a, .bytes b => a == b
  | .timestamp a, .timestamp b => a == b
  | .array a, .array b => sameList a b
  | .object a, .object b => sameFields a b
  | _, _ => false

def sameList : List Value → List Value → Bool
  | [], [] => true
  | v :: vs, w :: ws => same v w && sameList vs ws
  | _, _ => false

def sameFields : List (String × Value) → List (String × Value) → Bool
  | [], [] => true
  | (k, v) :: vs, (l, w) :: ws => k == l && same v w && sameFields vs ws
  | _, _ => false

end

mutual

theorem same_iff : ∀ v w : Value, same v w = true ↔ v = w
  | .null, w => by cases w <;> simp [same]
  | .boolean a, w => by cases w <;> simp [same]
  | .integer a, w => by cases w <;> simp [same]
  | .float a, w => by cases w <;> simp [same]
  | .string a, w => by cases w <;> simp [same]
  | .bytes a, w => by cases w <;> simp [same]
  | .timestamp a, w => by cases w <;> simp [same]
  | .array a, w => by cases w <;> simp [same, sameList_iff a]
  | .object a, w => by cases w <;> simp [same, sameFields_iff a]

theorem sameList_iff : ∀ vs ws : List Value, sameList vs ws = true ↔ vs = ws
  | [], ws => by cases ws <;> simp [sameList]
  | v :: vs, ws => by
      cases ws with
      | nil => simp [sameList]
      | cons w ws => simp [sameList, same_iff v w, sameList_iff vs ws]

theorem sameFields_iff : ∀ vs ws : List (String × Value), sameFields vs ws = true ↔ vs = ws
  | [], ws => by cases ws <;> simp [sameFields]
  | (k, v) :: vs, ws => by
      cases ws with
      | nil => simp [sameFields]
      | cons w ws => simp [sameFields, same_iff v w.2, sameFields_iff vs ws, Prod.ext_iff]

end

instance : DecidableEq Value := fun v w =>
  decidable_of_iff (same v w = true) (same_iff v w)

/-! ## Equality -/

mutual

/-- The equality of values: no number equals what is not one, the two zeros are equal, and so are
objects with equal values under the same keys. -/
def beq : Value → Value → Bool
  | .null, .null => true
  | .boolean a, .boolean b => a == b
  | .integer a, .integer b => a == b
  | .float a, .float b => a.partialCmp b == some .eq
  | .string a, .string b => a == b
  | .bytes a, .bytes b => a == b
  | .timestamp a, .timestamp b => a == b
  | .array a, .array b => beqList a b
  | .object a, .object b => a.length == b.length && beqFields a b
  | _, _ => false

def beqList : List Value → List Value → Bool
  | [], [] => true
  | v :: vs, w :: ws => beq v w && beqList vs ws
  | _, _ => false

/-- Whether every field has an equal one among the given fields. -/
def beqFields : List (String × Value) → List (String × Value) → Bool
  | [], _ => true
  | (k, v) :: vs, ws =>
      (match ws.lookup k with
        | some w => beq v w
        | none => false) && beqFields vs ws

end

/-! ## The debug text -/

mutual

/-- The value that the debug text of a value shows.  The text is written so that it can be read
back, but every pattern that is not a number is written alike. -/
def debug : Value → Value
  | .float f => .float (if f.isNaN then Binary64.nan else f)
  | .array a => .array (debugList a)
  | .object o => .object (debugFields o)
  | v => v

def debugList : List Value → List Value
  | [] => []
  | v :: vs => debug v :: debugList vs

def debugFields : List (String × Value) → List (String × Value)
  | [] => []
  | (k, v) :: vs => (k, debug v) :: debugFields vs

end

end Value

abbrev Row := List Value

/-- What an execution fails with. -/
inductive ExecutorError where
  | tableNotFound (name : String)
  | columnNotFound (name : String)
  /-- The value whose debug text is shown is not of the type that was expected. -/
  | typeMismatch (expected : String) (actual : Value)
  | invalidOperation (message : String)
  | internal (message : String)
  | indexError (message : String)
deriving DecidableEq

/-! ## Comparison -/

/-- The comparison of two values. -/
def compareValues : Value → Value → Ordering
  | .integer l, .integer r => compare l r
  | .float l, .float r => (l.partialCmp r).getD .eq
  | .integer l, .float r => ((Binary64.ofInt64 l).partialCmp r).getD .eq
  | .float l, .integer r => (l.partialCmp (Binary64.ofInt64 r)).getD .eq
  | .string l, .string r => compare l r
  | .boolean l, .boolean r => compare l r
  | _, _ => .eq

/-- The truth value of a value. -/
def valueToBool : Value → Except ExecutorError Bool
  | .boolean b => .ok b
  | .integer i => .ok (i != 0)
  | .null => .ok false
  | v => .error (.typeMismatch "boolean" v.debug)

@[simp] theorem compareValues_null_left (v : Value) : compareValues .null v = .eq := by
  cases v <;> rfl

@[simp] theorem compareValues_null_right (v : Value) : compareValues v .null = .eq := by
  cases v <;> rfl

end Query

end AegisDB
