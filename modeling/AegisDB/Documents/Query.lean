import AegisDB.Documents.Index

/-!
# Queries on documents

A query has filters, all of which a document must match, and what is done to the documents that
match: sorting, the window of `skip` and `limit`, and the projection.
-/

namespace AegisDB

namespace Documents

/-- A filter condition. -/
inductive Filter where
  | eq (field : String) (value : Value)
  | ne (field : String) (value : Value)
  | gt (field : String) (value : Value)
  | gte (field : String) (value : Value)
  | lt (field : String) (value : Value)
  | lte (field : String) (value : Value)
  | isIn (field : String) (values : List Value)
  | notIn (field : String) (values : List Value)
  | fieldExists (field : String) (expected : Bool)
  | regex (field : String) (pattern : String)
  | contains (field : String) (value : String)
  | startsWith (field : String) (value : String)
  | endsWith (field : String) (value : String)
  | and (filters : List Filter)
  | or (filters : List Filter)
  | not (filter : Filter)

/-- Sort specification. -/
structure SortSpec where
  field : String
  ascending : Bool

/-- A query for filtering documents. -/
structure Query where
  filters : List Filter
  sort : Option SortSpec
  skip : Option ℕ
  limit : Option ℕ
  projection : Option (List String)

/-- Result of a document query. -/
structure QueryResult where
  documents : List Document
  totalScanned : ℕ

section Matches

variable (rt : Runtime)

/-- Whether a text in a field meets a condition. -/
def textMatches (doc : Document) (field : String) (p : String → Bool) : Bool :=
  match doc.get field with
  | some (.str s) => p s
  | _ => false

mutual

/-- Check if a document matches a filter. -/
def Filter.matches (doc : Document) : Filter → Bool
  | .eq field value => ((doc.get field).map fun v => valueEq v value).getD false
  | .ne field value => ((doc.get field).map fun v => !valueEq v value).getD true
  | .gt field value =>
      ((doc.get field).map fun v => decide (compareValues v value = some .gt)).getD false
  | .gte field value =>
      ((doc.get field).map fun v => decide (compareValues v value = some .gt) ||
        decide (compareValues v value = some .eq)).getD false
  | .lt field value =>
      ((doc.get field).map fun v => decide (compareValues v value = some .lt)).getD false
  | .lte field value =>
      ((doc.get field).map fun v => decide (compareValues v value = some .lt) ||
        decide (compareValues v value = some .eq)).getD false
  | .isIn field values =>
      ((doc.get field).map fun v => values.any fun w => valueEq w v).getD false
  | .notIn field values =>
      ((doc.get field).map fun v => !values.any fun w => valueEq w v).getD true
  | .fieldExists field expected => doc.contains field == expected
  | .regex field pattern => textMatches doc field fun s => (rt.isMatch pattern s).getD false
  | .contains field value => textMatches doc field fun s => decide (value.toList <:+: s.toList)
  | .startsWith field value => textMatches doc field fun s => decide (value.toList <+: s.toList)
  | .endsWith field value => textMatches doc field fun s => decide (value.toList <:+ s.toList)
  | .and filters => allMatch doc filters
  | .or filters => anyMatches doc filters
  | .not filter => !filter.matches doc

def allMatch (doc : Document) : List Filter → Bool
  | [] => true
  | f :: filters => f.matches doc && allMatch doc filters

def anyMatches (doc : Document) : List Filter → Bool
  | [] => false
  | f :: filters => f.matches doc || anyMatches doc filters

end

def Query.matches (query : Query) (doc : Document) : Bool :=
  query.filters.all fun f => f.matches rt doc

end Matches

def SortSpec.cmp (sort : SortSpec) (a b : Document) : Ordering :=
  let ord := compareOptionalValues (a.get sort.field) (b.get sort.field)
  if sort.ascending then ord else ord.swap

namespace Query

/-- Sort the matching documents; documents that compare as equal stay in their order. -/
def sorted (query : Query) (matching : List Document) : List Document :=
  match query.sort with
  | some sort => matching.mergeSort fun a b => sort.cmp a b != .gt
  | none => matching

/-- What `skip` and `limit` leave. -/
def window (query : Query) (matching : List Document) : List Document :=
  let matching := match query.skip with
    | some skip => if skip < matching.length then matching.drop skip else []
    | none => matching
  match query.limit with
  | some limit => matching.take limit
  | none => matching

/-- Keep the fields of the projection. -/
def project (query : Query) (matching : List Document) : List Document :=
  match query.projection with
  | some fields =>
    matching.map fun doc => { doc with data := doc.data.filter fun e => fields.contains e.1 }
  | none => matching

def finish (query : Query) (matching : List Document) : List Document :=
  query.project (query.window (query.sorted matching))

end Query

end Documents

end AegisDB
