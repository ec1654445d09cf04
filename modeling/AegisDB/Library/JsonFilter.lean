import AegisDB.Library.Json

/-!
# Filters of JSON objects

A filter is an object; a value passes it if it is an object that has the same value under each of
its names.  The fields of an object are in the order of their names.
-/

namespace AegisDB.Json

variable {ν : Type} [DecidableEq ν]

mutual

/-- Whether two values are the same. -/
def same : Json ν → Json ν → Bool
  | .null, .null => true
  | .bool a, .bool b => a == b
  | .num a, .num b => decide (a = b)
  | .str a, .str b => a == b
  | .arr a, .arr b => sameItems a b
  | .obj a, .obj b => sameFields a b
  | _, _ => false

def sameItems : List (Json ν) → List (Json ν) → Bool
  | [], [] => true
  | a :: as, b :: bs => same a b && sameItems as bs
  | _, _ => false

def sameFields : List (String × Json ν) → List (String × Json ν) → Bool
  | [], [] => true
  | (k, a) :: as, (l, b) :: bs => k == l && same a b && sameFields as bs
  | _, _ => false

end

omit [DecidableEq ν] in
def asObject : Json ν → Option (List (String × Json ν))
  | .obj fields => some fields
  | _ => none

/-- Whether a value passes a filter.  What is not an object passes those that have no fields, and
all pass what is not an object. -/
def passes (value filter : Json ν) : Bool :=
  match value.asObject, filter.asObject with
  | some m, some f => f.all fun (k, v) => (m.lookup k).any fun w => w.same v
  | none, some f => f.isEmpty
  | _, none => true

omit [DecidableEq ν] in
def isFilter (filter : Json ν) : Bool :=
  (filter.asObject.map fun m => !m.isEmpty).getD false

theorem passes_of_isFilter {filter : Json ν} (h : filter.isFilter = false) (value : Json ν) :
    value.passes filter = true := by
  rw [passes]
  rw [isFilter] at h
  cases hfields : filter.asObject with
  | none => cases value.asObject <;> rfl
  | some fields =>
    rw [hfields] at h
    cases fields with
    | nil => cases value.asObject <;> rfl
    | cons field fields => cases h

end AegisDB.Json
