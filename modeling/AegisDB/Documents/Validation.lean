import AegisDB.Documents.Query

/-!
# Validation of documents

A schema requires fields, describes the values of fields, and may forbid all others.  The check of a
value stops at its first error, that of a document collects one error for each field.
-/

namespace AegisDB

namespace Documents

/-- Type of a field value. -/
inductive FieldType where
  | string | int | float | number | bool | array | object | any
deriving DecidableEq

/-- The name of the type in an error. -/
def FieldType.name : FieldType → String
  | string => "String"
  | int => "Int"
  | float => "Float"
  | number => "Number"
  | bool => "Bool"
  | array => "Array"
  | object => "Object"
  | any => "Any"

/-- Whether a value is of the type. -/
def FieldType.matches : FieldType → Value → Bool
  | any, _ => true
  | string, .str _ => true
  | int, .num (.int _) => true
  | float, .num (.float _) => true
  | number, .num _ => true
  | bool, .bool _ => true
  | array, .arr _ => true
  | object, .obj _ => true
  | _, _ => false

/-- The name of the kind of a value in an error. -/
def valueType : Value → String
  | .null => "null"
  | .bool _ => "bool"
  | .num (.int _) => "int"
  | .num (.float _) => "float"
  | .str _ => "string"
  | .arr _ => "array"
  | .obj _ => "object"

/-- Schema for a single field. -/
inductive FieldSchema where
  | mk (fieldType : FieldType) (nullable : Bool) (min max : Option Binary64)
      (minLength maxLength : Option ℕ) (pattern : Option String)
      (enumValues : Option (List Value)) (items : Option FieldSchema)
      (properties : Option (List (String × FieldSchema)))

/-- Schema definition for document validation. -/
structure Schema where
  name : String
  fields : Table String FieldSchema
  required : List String
  additionalProperties : Bool

/-- Result of schema validation. -/
structure ValidationResult where
  isValid : Bool
  errors : List String

section Validate

variable (rt : Runtime)

/-- The check of a number against its bounds; `text` is how the number is written. -/
def validateBounds (min max : Option Binary64) (text : String) (f : Binary64) :
    Except String Unit := do
  if let some min := min then
    if f.partialCmp min = some .lt then
      throw s!"Value {text} is less than minimum {rt.floatText min}"
  if let some max := max then
    if f.partialCmp max = some .gt then
      throw s!"Value {text} is greater than maximum {rt.floatText max}"

/-- The check of a length against its bounds. -/
def validateLength (minLength maxLength : Option ℕ) (kind : String) (len : ℕ) :
    Except String Unit := do
  if let some minLen := minLength then
    if len < minLen then
      throw s!"{kind} length {len} is less than minimum {minLen}"
  if let some maxLen := maxLength then
    if len > maxLen then
      throw s!"{kind} length {len} is greater than maximum {maxLen}"

/-- The check of a text against its pattern. -/
def validatePattern (pattern : Option String) (s : String) : Except String Unit :=
  match pattern with
  | some pattern =>
    match rt.isMatchLimited pattern s with
    | .error e => throw s!"Invalid regex pattern: {e}"
    | .ok true => pure ()
    | .ok false => throw s!"String does not match pattern: {pattern}"
  | none => pure ()

mutual

/-- Validate a value against a field schema. -/
def FieldSchema.validate : FieldSchema → Value → Except String Unit
  | .mk fieldType nullable min max minLength maxLength pattern enumValues items properties,
    value => do
    match value with
    | .null => if nullable then pure () else throw "Value cannot be null"
    | value =>
      if !fieldType.matches value then
        throw s!"Expected type {fieldType.name}, got \"{valueType value}\""
      if let some enumValues := enumValues then
        if !enumValues.any fun v => valueEq v value then
          throw "Value not in allowed enum values"
      match value with
      | .num (.int n) => validateBounds rt min max (toString n.toInt) (Binary64.ofInt64 n)
      | .num (.float f) => validateBounds rt min max (rt.floatText f) f
      | .str s => do
        validateLength minLength maxLength "String" s.utf8ByteSize
        validatePattern rt pattern s
      | .arr arr => do
        validateLength minLength maxLength "Array" arr.length
        match items with
        | some items => arr.zipIdx.forM fun item =>
            match items.validate item.1 with
            | .ok () => pure ()
            | .error e => throw s!"Array item {item.2}: {e}"
        | none => pure ()
      | .obj obj =>
        match properties with
        | some props => validateProperties obj props
        | none => pure ()
      | _ => pure ()

/-- Validate the properties of an object that it has. -/
def validateProperties (obj : List (String × Value)) :
    List (String × FieldSchema) → Except String Unit
  | [] => pure ()
  | (key, schema) :: props => do
    if let some value := obj.lookup key then
      match schema.validate value with
      | .ok () => pure ()
      | .error e => throw s!"Property '{key}': {e}"
    validateProperties obj props

end

/-- Validate a document against a schema. -/
def Schema.validate (schema : Schema) (doc : Document) : ValidationResult :=
  let missing := (schema.required.filter fun required => !doc.contains required).map
    fun required => s!"Missing required field: {required}"
  let invalid := schema.fields.entries.filterMap fun e =>
    match doc.get e.1 with
    | some value =>
      match e.2.validate rt value with
      | .ok () => none
      | .error err => some s!"Field '{e.1}': {err}"
    | none => none
  let unknown := if schema.additionalProperties then [] else
    (doc.keys.filter fun key => (schema.fields.lookup key).isNone).map
      fun key => s!"Unknown field: {key}"
  let errors := missing ++ invalid ++ unknown
  { isValid := errors.isEmpty, errors := errors }

end Validate

end Documents

end AegisDB
