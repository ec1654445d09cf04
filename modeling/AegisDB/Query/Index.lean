import AegisDB.Library.Table
import AegisDB.Query.Value

/-!
# Indexes of a table

An index maps keys to positions of rows.  Its keys are compared by an order in which a pattern that
is not a number is next to every number; two keys that compare as equal are one.  The executor makes
no other than B-tree indexes.
-/

namespace AegisDB

namespace Query

/-- A value in a key of an index. -/
inductive IndexValue where
  | null
  | bool (b : Bool)
  | int (i : ℤ)
  | string (s : String)
  | float (f : Binary64)
deriving DecidableEq

namespace IndexValue

/-- The kinds of values in their order. -/
def rank : IndexValue → ℕ
  | .null => 0
  | .bool _ => 1
  | .int _ => 2
  | .string _ => 3
  | .float _ => 4

def cmp : IndexValue → IndexValue → Ordering
  | .bool a, .bool b => compare a b
  | .int a, .int b => compare a b
  | .string a, .string b => compare a b
  | .float a, .float b => (a.partialCmp b).getD .eq
  | v, w => compare v.rank w.rank

end IndexValue

/-- A key of an index: a value for each column. -/
abbrev IndexKey := List IndexValue

namespace IndexKey

/-- The value of a key for a value of a column; values without an order stand by their debug
text. -/
def fromValue (debugText : Value → String) : Value → IndexValue
  | .null => .null
  | .boolean b => .bool b
  | .integer i => .int i.toInt
  | .float f => .float f
  | .string s => .string s
  | .timestamp t => .int t.seconds
  | v => .string (debugText v)

def same : IndexKey → IndexKey → Bool
  | [], [] => true
  | v :: vs, w :: ws => v.cmp w == .eq && same vs ws
  | _, _ => false

end IndexKey

/-- What an operation on an index fails with. -/
inductive IndexError where
  | duplicateKey (message : String)
  | indexNotFound (message : String)

def IndexError.toExecutorError : IndexError → ExecutorError
  | .duplicateKey message => .indexError ("Duplicate key: " ++ message)
  | .indexNotFound message => .indexError ("Index not found: " ++ message)

/-- An index. -/
structure BTreeIndex where
  name : String
  columns : List String
  unique : Bool
  tree : List (IndexKey × List ℕ)
deriving DecidableEq

namespace BTreeIndex

def get (index : BTreeIndex) (key : IndexKey) : List ℕ :=
  ((index.tree.find? fun e => e.1.same key).map Prod.snd).getD []

/-- Put a position under a key. -/
def insertTree (key : IndexKey) (rowId : ℕ) : List (IndexKey × List ℕ) → List (IndexKey × List ℕ)
  | [] => [(key, [rowId])]
  | e :: tree =>
      if e.1.same key then (e.1, if rowId ∈ e.2 then e.2 else e.2 ++ [rowId]) :: tree
      else e :: insertTree key rowId tree

def insert (index : BTreeIndex) (key : IndexKey) (rowId : ℕ) : Except IndexError BTreeIndex :=
  if index.unique && !(index.get key).isEmpty then
    .error (.duplicateKey ("Duplicate key in unique index '" ++ index.name ++ "'"))
  else .ok { index with tree := insertTree key rowId index.tree }

end BTreeIndex

/-- The indexes of a table under their names. -/
structure TableIndexManager where
  btreeIndexes : Table String BTreeIndex
deriving DecidableEq

namespace TableIndexManager

def new : TableIndexManager :=
  ⟨∅⟩

def createIndex (m : TableIndexManager) (name : String) (columns : List String) (unique : Bool) :
    Except IndexError TableIndexManager :=
  if name ∈ m.btreeIndexes then .error (.duplicateKey ("Index '" ++ name ++ "' already exists"))
  else .ok ⟨m.btreeIndexes.insert name { name, columns, unique, tree := [] }⟩

def dropIndex (m : TableIndexManager) (name : String) : TableIndexManager :=
  ⟨m.btreeIndexes.erase name⟩

def insertIntoIndex (m : TableIndexManager) (name : String) (key : IndexKey) (rowId : ℕ) :
    Except IndexError TableIndexManager :=
  match m.btreeIndexes.lookup name with
  | none => .error (.indexNotFound name)
  | some index => (index.insert key rowId).map fun index => ⟨m.btreeIndexes.insert name index⟩

def lookupEq (m : TableIndexManager) (name : String) (key : IndexKey) : Option (List ℕ) :=
  (m.btreeIndexes.lookup name).map fun index => index.get key

/-- An index whose first columns are the given ones. -/
def findIndexForColumns (m : TableIndexManager) (columns : List String) : Option String :=
  (m.btreeIndexes.entries.find? fun e => columns.isPrefixOf e.2.columns).map Sigma.fst

end TableIndexManager

end Query

end AegisDB
