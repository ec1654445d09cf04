import AegisDB.Library.Json

/-!
# Paths into JSON values

An object is a map, so two values are the same if the same is found at the end of every path, in
whatever order their fields stand.  A value whose numbers are replaced has the same paths, if no
number is replaced by a list or an object (`Json.at_mapNum`).
-/

namespace AegisDB.Json

variable {ν μ : Type*}

/-- A step into a value. -/
inductive Step where
  | key (name : String)
  | index (i : ℕ)

def child : Step → Json ν → Option (Json ν)
  | .key name, obj fields => fields.lookup name
  | .index i, arr items => items[i]?
  | _, _ => none

def at? : List Step → Json ν → Option (Json ν)
  | [], j => some j
  | step :: path, j => (j.child step).bind (at? path)

/-- A value without the values in it. -/
inductive Shape (ν : Type*) where
  | null
  | bool (b : Bool)
  | num (n : ν)
  | str (s : String)
  | arr
  | obj

def shape : Json ν → Shape ν
  | null => .null
  | bool b => .bool b
  | num n => .num n
  | str s => .str s
  | arr _ => .arr
  | obj _ => .obj

/-- Every path leads to the same in both values. -/
def Same (a b : Json ν) : Prop :=
  ∀ path, (a.at? path).map shape = (b.at? path).map shape

theorem same_obj_iff {a b : List (String × Json ν)} :
    Same (obj a) (obj b) ↔
      ∀ name path, ((a.lookup name).bind (at? path)).map shape =
        ((b.lookup name).bind (at? path)).map shape := by
  constructor
  · exact fun h name path => h (.key name :: path)
  · intro h path
    match path with
    | [] => rfl
    | .key name :: path => exact h name path
    | .index i :: path => rfl

/-! ## Numbers -/

mutual

/-- Replace every number by a value. -/
def mapNum (f : ν → Json μ) : Json ν → Json μ
  | null => null
  | bool b => bool b
  | num n => f n
  | str s => str s
  | arr items => arr (mapItems f items)
  | obj fields => obj (mapFields f fields)

/-- Replace the numbers in the items of a list. -/
def mapItems (f : ν → Json μ) : List (Json ν) → List (Json μ)
  | [] => []
  | j :: items => mapNum f j :: mapItems f items

/-- Replace the numbers in the fields of an object. -/
def mapFields (f : ν → Json μ) : List (String × Json ν) → List (String × Json μ)
  | [] => []
  | (name, j) :: fields => (name, mapNum f j) :: mapFields f fields

end

def IsLeaf (j : Json ν) : Prop :=
  ∀ step, j.child step = none

variable {f : ν → Json μ}

theorem getElem?_mapItems (items : List (Json ν)) (i : ℕ) :
    (mapItems f items)[i]? = items[i]?.map (mapNum f) := by
  induction items generalizing i with
  | nil => rfl
  | cons j items ih =>
    cases i with
    | zero => rfl
    | succ i => exact ih i

theorem lookup_mapFields (fields : List (String × Json ν)) (name : String) :
    (mapFields f fields).lookup name = (fields.lookup name).map (mapNum f) := by
  induction fields with
  | nil => rfl
  | cons field fields ih =>
    obtain ⟨name', j⟩ := field
    rw [mapFields, List.lookup_cons, List.lookup_cons]
    cases name == name' with
    | true => rfl
    | false => exact ih

theorem child_mapNum (hf : ∀ n, (f n).IsLeaf) (step : Step) (j : Json ν) :
    (mapNum f j).child step = (j.child step).map (mapNum f) := by
  cases j with
  | num n =>
    rw [mapNum, hf n step]
    cases step <;> rfl
  | arr items =>
    cases step with
    | key name => rfl
    | index i => exact getElem?_mapItems items i
  | obj fields =>
    cases step with
    | key name => exact lookup_mapFields fields name
    | index i => rfl
  | null => cases step <;> rfl
  | bool b => cases step <;> rfl
  | str s => cases step <;> rfl

theorem at_mapNum (hf : ∀ n, (f n).IsLeaf) (path : List Step) (j : Json ν) :
    (mapNum f j).at? path = (j.at? path).map (mapNum f) := by
  induction path generalizing j with
  | nil => rfl
  | cons step path ih =>
    rw [at?, at?, child_mapNum hf]
    cases j.child step with
    | none => rfl
    | some inner => exact ih inner

/-! ## Insertion -/

/-- Insert a field into an object; one of the same name is replaced. -/
def insertField {β : Type*} (name : String) (value : β) : List (String × β) → List (String × β)
  | [] => [(name, value)]
  | (name', value') :: fields =>
    if name' = name then (name, value) :: fields
    else (name', value') :: insertField name value fields

section Insertion

variable {α β : Type*}

theorem lookup_insertField (name : String) (value : β) (fields : List (String × β))
    (name' : String) : (insertField name value fields).lookup name' =
      if name' = name then some value else fields.lookup name' := by
  induction fields with
  | nil =>
    rw [insertField, List.lookup_cons]
    split_ifs with h
    · rw [beq_iff_eq.mpr h]
    · rw [beq_eq_false_iff_ne.mpr h]
  | cons field fields ih =>
    obtain ⟨key, old⟩ := field
    rw [insertField]
    by_cases hkey : key = name
    · rw [if_pos hkey, List.lookup_cons, List.lookup_cons]
      split_ifs with h
      · rw [beq_iff_eq.mpr h]
      · rw [beq_eq_false_iff_ne.mpr h, beq_eq_false_iff_ne.mpr fun heq => h (heq.trans hkey)]
    · rw [if_neg hkey, List.lookup_cons, List.lookup_cons, ih]
      cases hname : name' == key with
      | true => exact (if_neg fun heq => hkey ((beq_iff_eq.mp hname).symm.trans heq)).symm
      | false => rfl

theorem names_insertField (name : String) (value : β) (fields : List (String × β)) :
    (insertField name value fields).map Prod.fst =
      if name ∈ fields.map Prod.fst then fields.map Prod.fst
      else fields.map Prod.fst ++ [name] := by
  induction fields with
  | nil => rfl
  | cons field fields ih =>
    obtain ⟨key, old⟩ := field
    rw [insertField, List.map_cons]
    by_cases hkey : key = name
    · rw [if_pos hkey, if_pos (List.mem_cons.mpr (Or.inl hkey.symm)), List.map_cons, hkey]
    · rw [if_neg hkey, List.map_cons, ih]
      by_cases hmem : name ∈ fields.map Prod.fst
      · rw [if_pos hmem, if_pos (List.mem_cons_of_mem _ hmem)]
      · rw [if_neg hmem, if_neg fun h => (List.mem_cons.mp h).elim (fun h => hkey h.symm) hmem]
        rfl

theorem nodup_insertField {name : String} {value : β} {fields : List (String × β)}
    (h : (fields.map Prod.fst).Nodup) : ((insertField name value fields).map Prod.fst).Nodup := by
  rw [names_insertField]
  split_ifs with hmem
  · exact h
  · refine List.Nodup.append h (List.nodup_singleton name) ?_
    exact List.disjoint_singleton.mpr hmem

/-- What is found when some of the fields of an object have been inserted one after the other. -/
theorem lookup_foldl {step : List (String × β) → String × α → List (String × β)}
    (value : String → α → Option β)
    (hstep : ∀ fields name a name', (step fields (name, a)).lookup name' =
      if name' = name then (value name a).or (fields.lookup name') else fields.lookup name')
    {l : List (String × α)} (hl : (l.map Prod.fst).Nodup) (fields : List (String × β))
    (name : String) : (l.foldl step fields).lookup name =
      ((l.lookup name).bind (value name)).or (fields.lookup name) := by
  induction l generalizing fields with
  | nil => rfl
  | cons entry l ih =>
    obtain ⟨key, a⟩ := entry
    rw [List.map_cons, List.nodup_cons] at hl
    rw [List.foldl_cons, ih hl.2, hstep, List.lookup_cons]
    by_cases h : name = key
    · -- the name is not there again
      have hnone : l.lookup name = none :=
        List.lookup_eq_none_iff.mpr fun e he => bne_iff_ne.mpr fun heq =>
          hl.1 (List.mem_map.mpr ⟨e, he, heq.symm.trans h⟩)
      rw [if_pos h, beq_iff_eq.mpr h, hnone, h]
      rfl
    · rw [if_neg h, beq_eq_false_iff_ne.mpr h]

end Insertion

end AegisDB.Json
