import AegisDB.Library.Table

/-!
# JSON values

A JSON value is a tree of lists and objects; the fields of an object are kept in their order.
-/

namespace AegisDB

/-- A JSON value, with its numbers. -/
inductive Json (ν : Type*) where
  | null
  | bool (b : Bool)
  | num (n : ν)
  | str (s : String)
  | arr (items : List (Json ν))
  | obj (fields : List (String × Json ν))

namespace Json

variable {ν α β : Type*}

/-! ## Parts of values -/

def toStr : Json ν → Option String
  | str s => some s
  | _ => none

def field (name : String) : Json ν → Option (Json ν)
  | obj fields => fields.lookup name
  | _ => none

/-! ## Lists and tables -/

variable [DecidableEq α]

theorem toAList_entries (t : Table α β) : t.entries.toAList = t := by
  refine AList.ext ?_
  rw [AList.entries_toAList]
  obtain ⟨entries, hnodup⟩ := t
  change entries.dedupKeys = entries
  induction entries with
  | nil => rfl
  | cons e l ih =>
    obtain ⟨hnot, hl⟩ := List.nodupKeys_cons.1 hnodup
    rw [List.dedupKeys_cons, ih hl, List.kinsert_def, List.kerase_of_notMem_keys hnot]

end Json

end AegisDB
