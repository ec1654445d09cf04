import AegisDB.Documents.Value
import AegisDB.Library.JsonPath

/-!
# Documents on the disk

A document is written as one JSON object: its identifier under `_id`, and its fields beside it.  A
field of that name is written over the identifier and dropped when the object is read, and a number
that is not finite is written as null.  Nothing else is lost: without these, a document is read as
it was written.
-/

namespace AegisDB.Documents

open Json (insertField)

/-- The number is neither an infinity nor no number. -/
def isFinite (f : Binary64) : Bool :=
  decide (f.magnitude < 0x7FF0000000000000)

/-- The numbers of JSON values: integers that are not negative, negative ones, and others. -/
inductive JsonNumber where
  | posInt (n : UInt64)
  | negInt (i : Int64)
  | float (f : Binary64)

namespace JsonNumber

def ofI64 (i : Int64) : JsonNumber :=
  if i < 0 then negInt i else posInt i.toUInt64

def fromF64 (f : Binary64) : Option JsonNumber :=
  if isFinite f then some (float f) else none

def asI64 : JsonNumber → Option Int64
  | posInt n => if n.toNat < 2 ^ 63 then some n.toInt64 else none
  | negInt i => some i
  | float _ => none

def asF64 : JsonNumber → Option Binary64
  | posInt n => some (if n = 0 then ⟨0⟩ else ⟨UInt64.ofNat (Binary64.roundNat n.toNat)⟩)
  | negInt i => some (Binary64.ofInt64 i)
  | float f => some f

end JsonNumber

/-- Convert JSON number to a value. -/
def jsonToDocNumber (n : JsonNumber) : Value :=
  match n.asI64 with
  | some i => .num (.int i)
  | none =>
    match n.asF64 with
    | some f => .num (.float f)
    | none => .null

/-- Convert JSON value to a value of a document: its numbers are converted, at any depth. -/
def jsonToDocValue (json : Json JsonNumber) : Value :=
  json.mapNum jsonToDocNumber

def docNumberToJson : Number → Json JsonNumber
  | .int i => .num (.ofI64 i)
  | .float f => ((JsonNumber.fromF64 f).map Json.num).getD .null

/-- Convert a value of a document to JSON: its numbers are converted, at any depth. -/
def docValueToJson (value : Value) : Json JsonNumber :=
  value.mapNum docNumberToJson

def Document.set (doc : Document) (key : String) (value : Value) : Document :=
  { doc with data := insertField key value doc.data }

def readField (doc : Document) (field : String × Json JsonNumber) : Document :=
  if field.1 ≠ "_id" then doc.set field.1 (jsonToDocValue field.2) else doc

/-- A document without fields, with the identifier that it has in JSON or a new one. -/
def withIdOf (generated : DocumentId) (json : Json JsonNumber) : Document :=
  match (json.field "_id").bind Json.toStr with
  | some id => { id, data := [] }
  | none => { id := generated, data := [] }

/-- Convert JSON to a document for loading from disk. -/
def jsonToDocument (generated : DocumentId) (json : Json JsonNumber) : Document :=
  match json with
  | .obj map => map.foldl readField (withIdOf generated json)
  | _ => withIdOf generated json

def writeField (map : List (String × Json JsonNumber)) (field : String × Value) :
    List (String × Json JsonNumber) :=
  insertField field.1 (docValueToJson field.2) map

/-- Convert a document to JSON for saving to disk. -/
def documentToJson (doc : Document) : Json JsonNumber :=
  .obj (doc.data.foldl writeField [("_id", .str doc.id)])

/-- A document whose fields have different names. -/
structure StoredDocument extends Document where
  distinct : (data.map Prod.fst).Nodup

/-- What is read has the identifier and the data that were written. -/
def RoundTrips (generated : DocumentId) (doc : Document) : Prop :=
  (jsonToDocument generated (documentToJson doc)).id = doc.id ∧
    Json.Same (.obj (jsonToDocument generated (documentToJson doc)).data) (.obj doc.data)

/-- The reserved name is not used, and all numbers at any depth are finite. -/
def Document.Writable (doc : Document) : Prop :=
  doc.data.lookup "_id" = none ∧ ∀ path f,
    (Json.obj doc.data).at? path = some (.num (.float f)) → isFinite f = true

/-! ## Values -/

theorem isLeaf_docNumberToJson (n : Number) : (docNumberToJson n).IsLeaf := by
  intro step
  cases n with
  | int i => cases step <;> rfl
  | float f =>
    rw [docNumberToJson, JsonNumber.fromF64]
    split_ifs <;> cases step <;> rfl

theorem isLeaf_jsonToDocNumber (n : JsonNumber) : (jsonToDocNumber n).IsLeaf := by
  intro step
  rw [jsonToDocNumber]
  cases n.asI64 with
  | some i => cases step <;> rfl
  | none =>
    dsimp only
    cases n.asF64 <;> cases step <;> rfl

theorem asI64_ofI64 (i : Int64) : (JsonNumber.ofI64 i).asI64 = some i := by
  rw [JsonNumber.ofI64]
  split_ifs with h
  · rfl
  · have hle : 0 ≤ i := Int64.not_lt.mp h
    have hlt : i.toUInt64.toNat < 2 ^ 63 := by
      rw [Int64.toNat_toUInt64_of_le hle]
      exact i.toNatClampNeg_lt
    rw [JsonNumber.asI64, if_pos hlt, Int64.toInt64_toUInt64]

theorem shape_jsonToDocValue (value : Value) :
    (jsonToDocValue (docValueToJson value)).shape =
      match value with
      | .num (.float f) => if isFinite f then .num (.float f) else .null
      | _ => value.shape := by
  cases value with
  | num n =>
    rw [docValueToJson, Json.mapNum]
    cases n with
    | int i =>
      rw [docNumberToJson, jsonToDocValue, Json.mapNum, jsonToDocNumber, asI64_ofI64]
    | float f =>
      rw [docNumberToJson, JsonNumber.fromF64]
      dsimp only
      split_ifs <;> rfl
  | _ => rfl

theorem at_jsonToDocValue (path : List Json.Step) (value : Value) :
    (jsonToDocValue (docValueToJson value)).at? path =
      (value.at? path).map fun inner => jsonToDocValue (docValueToJson inner) := by
  rw [jsonToDocValue, docValueToJson, Json.at_mapNum isLeaf_jsonToDocNumber,
    Json.at_mapNum isLeaf_docNumberToJson, Option.map_map]
  rfl

/-- The same is found at the end of a path, unless it is a number that is not finite. -/
theorem shape_at_jsonToDocValue_iff (path : List Json.Step) (value : Value) :
    ((jsonToDocValue (docValueToJson value)).at? path).map Json.shape =
        (value.at? path).map Json.shape ↔
      ∀ f, value.at? path = some (.num (.float f)) → isFinite f = true := by
  rw [at_jsonToDocValue, Option.map_map]
  cases value.at? path with
  | none => exact iff_of_true rfl fun f h => nomatch h
  | some inner =>
    rw [Option.map_some, Option.map_some, Option.some_inj, Function.comp_apply,
      shape_jsonToDocValue]
    constructor
    · intro h f hf
      obtain rfl := Option.some.inj hf
      dsimp only at h
      split_ifs at h with hfinite
      · exact hfinite
      · cases h
    · intro h
      split
      · rename_i f
        rw [if_pos (h f rfl)]
        rfl
      · rfl

/-! ## Documents -/

theorem nodup_foldl_writeField (data : List (String × Value))
    {map : List (String × Json JsonNumber)} (h : (map.map Prod.fst).Nodup) :
    ((data.foldl writeField map).map Prod.fst).Nodup := by
  induction data generalizing map with
  | nil => exact h
  | cons field data ih => exact ih (Json.nodup_insertField h)

theorem field_documentToJson (doc : StoredDocument) (name : String) :
    (documentToJson doc.toDocument).field name =
      ((doc.data.lookup name).map docValueToJson).or
        (if name = "_id" then some (.str doc.id) else none) := by
  rw [documentToJson, Json.field, Json.lookup_foldl (fun _ v => some (docValueToJson v))
    (fun map key value name' => Json.lookup_insertField key _ map name') doc.distinct]
  congr 1
  · cases doc.data.lookup name <;> rfl
  · rw [List.lookup_cons]
    by_cases h : name = "_id"
    · rw [if_pos h, beq_iff_eq.mpr h]
    · rw [if_neg h, beq_eq_false_iff_ne.mpr h]
      rfl

theorem id_readField (doc : Document) (field : String × Json JsonNumber) :
    (readField doc field).id = doc.id := by
  rw [readField]
  split_ifs <;> rfl

theorem id_foldl_readField (map : List (String × Json JsonNumber)) (doc : Document) :
    (map.foldl readField doc).id = doc.id := by
  induction map generalizing doc with
  | nil => rfl
  | cons field map ih => exact (ih _).trans (id_readField doc field)

/-- The identifier that is read: what stands under `_id`, if it is a text. -/
theorem id_jsonToDocument (generated : DocumentId) (doc : StoredDocument) :
    (jsonToDocument generated (documentToJson doc.toDocument)).id =
      match doc.data.lookup "_id" with
      | none => doc.id
      | some (.str id) => id
      | some _ => generated := by
  have hid : (documentToJson doc.toDocument).field "_id" =
      ((doc.data.lookup "_id").map docValueToJson).or (some (.str doc.id)) :=
    (field_documentToJson doc "_id").trans (by rw [if_pos rfl])
  have hread : (jsonToDocument generated (documentToJson doc.toDocument)).id =
      (withIdOf generated (documentToJson doc.toDocument)).id :=
    id_foldl_readField _ _
  rw [hread, withIdOf, hid]
  cases doc.data.lookup "_id" with
  | none => rfl
  | some value =>
    cases value with
    | num n =>
      cases n with
      | int i => rfl
      | float f =>
        rw [Option.map_some, docValueToJson, Json.mapNum, docNumberToJson, JsonNumber.fromF64]
        split_ifs <;> rfl
    | _ => rfl

/-- The field that is read, under any name but that of the identifier. -/
def readValue (name : String) (json : Json JsonNumber) : Option Value :=
  if name ≠ "_id" then some (jsonToDocValue json) else none

def readInto (data : List (String × Value)) (field : String × Json JsonNumber) :
    List (String × Value) :=
  (readValue field.1 field.2).elim data fun value => insertField field.1 value data

theorem data_foldl_readField (map : List (String × Json JsonNumber)) (doc : Document) :
    (map.foldl readField doc).data = map.foldl readInto doc.data := by
  induction map generalizing doc with
  | nil => rfl
  | cons field map ih =>
    rw [List.foldl_cons, List.foldl_cons, ih, readField, readInto, readValue]
    split_ifs <;> rfl

theorem lookup_readInto (data : List (String × Value)) (key : String) (json : Json JsonNumber)
    (name : String) : (readInto data (key, json)).lookup name =
      if name = key then (readValue key json).or (data.lookup name) else data.lookup name := by
  rw [readInto]
  dsimp only
  cases readValue key json with
  | none => exact (ite_self _).symm
  | some value => exact Json.lookup_insertField key value data name

theorem lookup_jsonToDocument (generated : DocumentId) (doc : StoredDocument) (name : String) :
    (jsonToDocument generated (documentToJson doc.toDocument)).data.lookup name =
      if name = "_id" then none
      else (doc.data.lookup name).map fun value => jsonToDocValue (docValueToJson value) := by
  have hempty : (withIdOf generated (documentToJson doc.toDocument)).data = [] := by
    rw [withIdOf]
    split <;> rfl
  have hread : (jsonToDocument generated (documentToJson doc.toDocument)).data.lookup name =
      ((documentToJson doc.toDocument).field name).bind (readValue name) := by
    have hnodup : ((doc.data.foldl writeField [("_id", .str doc.id)]).map Prod.fst).Nodup :=
      nodup_foldl_writeField doc.data (List.nodup_singleton "_id")
    rw [documentToJson, jsonToDocument, data_foldl_readField,
      Json.lookup_foldl readValue lookup_readInto hnodup, ← documentToJson, hempty]
    exact Option.or_none
  rw [hread, field_documentToJson]
  by_cases hname : name = "_id"
  · rw [if_pos hname, if_pos hname, hname]
    cases doc.data.lookup "_id" <;> rfl
  · rw [if_neg hname, if_neg hname, Option.or_none]
    cases doc.data.lookup name with
    | none => rfl
    | some value => exact if_pos hname

/-- A document is read as it was written exactly if it does not use the reserved name and all its
numbers are finite. -/
theorem roundTrips_iff (generated : DocumentId) (doc : StoredDocument) :
    RoundTrips generated doc.toDocument ↔ doc.toDocument.Writable := by
  rw [RoundTrips, Document.Writable, id_jsonToDocument, Json.same_obj_iff]
  constructor
  · rintro ⟨-, hsame⟩
    have hid : doc.data.lookup "_id" = none := by
      have hroot := hsame "_id" []
      rw [lookup_jsonToDocument, if_pos rfl] at hroot
      cases hdata : doc.data.lookup "_id" with
      | none => rfl
      | some value =>
        rw [hdata] at hroot
        cases hroot
    refine ⟨hid, fun path f hf => ?_⟩
    match path with
    | [] => cases hf
    | .index i :: path => cases hf
    | .key name :: path =>
      change (doc.data.lookup name).bind (Json.at? path) = some (.num (.float f)) at hf
      have hpath := hsame name path
      have hname : name ≠ "_id" := by
        rintro rfl
        rw [hid] at hf
        cases hf
      rw [lookup_jsonToDocument, if_neg hname] at hpath
      cases hdata : doc.data.lookup name with
      | none =>
        rw [hdata] at hf
        cases hf
      | some value =>
        rw [hdata] at hf hpath
        exact (shape_at_jsonToDocValue_iff path value).mp hpath f hf
  · rintro ⟨hid, hfinite⟩
    rw [hid]
    refine ⟨rfl, fun name path => ?_⟩
    rw [lookup_jsonToDocument]
    by_cases hname : name = "_id"
    · rw [if_pos hname, hname, hid]
    · rw [if_neg hname]
      cases hdata : doc.data.lookup name with
      | none => rfl
      | some value =>
        refine (shape_at_jsonToDocValue_iff path value).mpr fun f hf => ?_
        refine hfinite (.key name :: path) f ?_
        change (doc.data.lookup name).bind (Json.at? path) = some (.num (.float f))
        rw [hdata]
        exact hf

/-- A document that has been given a field of the reserved name. -/
def renamed : StoredDocument where
  id := "a"
  data := [("_id", .str "b"), ("total", .num (.int 1))]
  distinct := by decide

/-- It is read with another identifier. -/
theorem not_roundTrips : ¬ ∀ (generated : DocumentId) (doc : StoredDocument),
    RoundTrips generated doc.toDocument := by
  intro h
  have hid : (jsonToDocument "c" (documentToJson renamed.toDocument)).id = "b" := by
    decide +kernel
  exact absurd (hid.symm.trans (h "c" renamed).1) (by decide)

end AegisDB.Documents
