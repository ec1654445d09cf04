import AegisDB.Library.Text
import AegisDB.Server.Script

/-!
# What counts as a mutation

Whether a text changes the database is decided in two ways: by the keyword that it begins with, and
by the statements that it is parsed to.  The first sees only the first statement, and not even that
where a comment stands before it; whether a change is replicated and announced depends on it.  The
paths for parameters and for prepared statements run only the first statement of a text, and what
they change is not replicated at all.
-/

namespace AegisDB

namespace Server

open Query

/-- The kinds of statements. -/
inductive StatementKind where
  | select | insert | update | delete | createTable | dropTable | alterTable | createIndex
  | dropIndex | setOperation | beginTransaction | commit | rollback
deriving DecidableEq

/-- The kind of the statement that a plan which changes the context was made from. -/
def statementKind : Statement → StatementKind
  | .createTable _ => .createTable
  | .dropTable _ => .dropTable
  | .alterTable _ => .alterTable
  | .createIndex _ => .createIndex
  | .dropIndex _ _ => .dropIndex
  | .insert _ => .insert
  | .update _ => .update
  | .delete _ => .delete

/-- A plan is one for statements of a kind. -/
def ScriptStatement.Fits (kind : StatementKind) : ScriptStatement → Prop
  | .beginTransaction => kind = .beginTransaction
  | .commitTransaction => kind = .commit
  | .rollbackTransaction => kind = .rollback
  | .query _ => kind = .select ∨ kind = .setOperation
  | .change statement => kind = statementKind statement
  | .unplanned _ => True

/-- A parsed statement, by its kind and its plan for given parameters. -/
structure ParsedStatement where
  kind : StatementKind
  plan : List Value → ScriptStatement
  plan_fits : ∀ params, (plan params).Fits kind

/-- Whether a statement changes the database. -/
def ParsedStatement.isMutationStmt (statement : ParsedStatement) : Bool :=
  match statement.kind with
  | .insert | .update | .delete => true
  | .createTable | .dropTable | .alterTable | .createIndex | .dropIndex => true
  | _ => false

/-- What a change event says that was done. -/
inductive ChangeType where
  | insert | update | delete | truncate
deriving DecidableEq

/-- The words that statements of a kind begin with if they change the database. -/
def StatementKind.words : StatementKind → List String
  | .insert => ["INSERT", "REPLACE"]
  | .update => ["UPDATE"]
  | .delete => ["DELETE"]
  | .createTable => ["CREATE"]
  | .createIndex => ["CREATE"]
  | .dropTable => ["DROP"]
  | .dropIndex => ["DROP"]
  | .alterTable => ["ALTER"]
  | _ => []

/-- The change events that statements of a kind should cause.  Changes of the schema cause none. -/
def StatementKind.changeType : StatementKind → Option ChangeType
  | .insert => some .insert
  | .update => some .update
  | .delete => some .delete
  | _ => none

/-- The keywords of texts that count as mutations. -/
def mutationKeywords : List String :=
  ["CREATE", "DROP", "ALTER", "INSERT", "UPDATE", "DELETE", "TRUNCATE"]

/-- The keywords that accepted statements begin with if they change the database. -/
def mutatingWords : List String :=
  ["CREATE", "DROP", "ALTER", "INSERT", "UPDATE", "DELETE", "REPLACE"]

/-- Whether a text begins with a keyword, in upper case. -/
def beginsWith (u : Uppercase) (t : List Char) (keyword : String) : Prop :=
  keyword.toList <+: u.text t

/-- The parser, with what is known of it. -/
structure SqlParser where
  uppercase : Uppercase
  parse : String → Option (List ParsedStatement)
  /-- What stands in a text before its first statement, and the text from there on. -/
  lead : String → List Char × List Char
  lead_append : ∀ sql, (lead sql).1 ++ (lead sql).2 = sql.toList
  /-- Before the first statement stand white space, comments and semicolons. -/
  lead_gap : ∀ sql statements, parse sql = some statements →
    (∀ c ∈ (lead sql).1, isWhitespace c = true) ∨
      ∃ c ∈ (trimStart (lead sql).1).head?, c = '-' ∨ c = '/' ∨ c = ';'
  lead_empty : ∀ sql, parse sql = some [] → (lead sql).2 = []
  /-- A statement begins with a character that is not white space. -/
  lead_start : ∀ sql statement rest, parse sql = some (statement :: rest) →
    ∃ c ∈ (lead sql).2.head?, isWhitespace c = false
  /-- The first word of a statement decides whether it changes the database. -/
  lead_word : ∀ sql statement rest, parse sql = some (statement :: rest) →
    (statement.isMutationStmt = true ↔
      ∃ w ∈ mutatingWords, beginsWith uppercase (lead sql).2 w) ∧
    ¬ beginsWith uppercase (lead sql).2 "TRUNCATE"
  /-- A statement that changes the database begins with a word of its kind, and has more than that
  word. -/
  lead_kind : ∀ sql statement rest, parse sql = some (statement :: rest) →
    statement.isMutationStmt = true →
      (∃ w ∈ statement.kind.words, beginsWith uppercase (lead sql).2 w) ∧
        6 < (trimText sql.toList).length

def isMutation (u : Uppercase) (sql : String) : Bool :=
  mutationKeywords.any (u.startsWith sql)

/-- The words that texts with a change event begin with. -/
def cdcKeywords : List (String × ChangeType) :=
  [("INSERT", .insert), ("UPDATE", .update), ("DELETE", .delete), ("TRUNCATE", .truncate)]

/-- The change event that a text causes, if it causes one.  The table and the time of the event are
left out. -/
def emitCdcEvent (u : Uppercase) (sql : String) : Option ChangeType :=
  let sqlTrimmed := trimText sql.toList
  if 6 < (sqlTrimmed.map Char.utf8Size).sum then
    let upper := u.text (sqlTrimmed.take 12)
    (cdcKeywords.find? fun keyword => keyword.1.toList.isPrefixOf upper).map Prod.snd
  else none

/-! ## Paths -/

/-- A query as it was served: what it left of the engine, how it ended, whether its text was sent to
the peers, and the change event that was published. -/
structure Served where
  engine : QueryEngine
  outcome : Outcome
  replicated : Bool
  emitted : Option ChangeType

/-- How a text is not prepared. -/
inductive PrepareError where
  | parse (message : String)
  | plan (message : String)

def maxPreparedStatements : ℕ :=
  10000

namespace QueryEngine

variable (text : DebugText) (order : HashOrder)

/-- The statements that the loop over a script runs, the last of which may fail. -/
def runsFrom (params : List Value) :
    QueryEngine → ScriptSession → List ParsedStatement → List ParsedStatement
  | _, _, [] => []
  | engine, session, statement :: statements =>
      statement ::
        match engine.executeStatement text order session (statement.plan params) with
        | (done, .ok) => runsFrom params done.1 done.2 statements
        | _ => []

/-- The statements that are run if all of the text is, with these parameters in it. -/
def runs (engine : QueryEngine) (statements : List ParsedStatement) (params : List Value) :
    List ParsedStatement :=
  runsFrom text order params engine .start statements

/-- Run one plan outside of scripts; statements about transactions are only answered. -/
def executePlan (engine : QueryEngine) : ScriptStatement → QueryEngine × Outcome
  | .beginTransaction => (engine, .ok)
  | .commitTransaction => (engine, .ok)
  | .rollbackTransaction => (engine, .ok)
  | .unplanned message => (engine, .err (.plan message))
  | .query run =>
      match run engine.context with
      | .error .panic => (engine, .panicked)
      | .error (.error e) => (engine, .err (.executor e))
      | .ok _ => (engine, .ok)
  | .change statement =>
      let done := engine.context.execute text statement
      let engine' : QueryEngine := { engine with context := done.1 }
      match done.2 with
      | .error .panic => (engine', .panicked)
      | .error (.error e) => (engine', .err (.executor e))
      | .ok _ => (engine', .ok)

/-- Run one plan outside of scripts, and store the database if the text counts as a mutation. -/
def runPlan (engine : QueryEngine) (isMutation : Bool) (plan : ScriptStatement) :
    QueryEngine × Outcome :=
  let done := engine.executePlan text plan
  (if isMutation = true ∧ done.2 = .ok then done.1.persist order else done.1, done.2)

/-- Run a text with parameters. -/
def executeWithParams (u : Uppercase) (engine : QueryEngine) (sql : String)
    (statements : List ParsedStatement) (params : List Value) : QueryEngine × Outcome :=
  if params.isEmpty then
    let done := executeAll text order engine .start (statements.map fun statement =>
      statement.plan [])
    (done.1.1, done.2)
  else
    match statements with
    | [] => (engine, .ok)
    | statement :: _ => engine.runPlan text order (isMutation u sql) (statement.plan params)

/-- The statements that are run with parameters. -/
def runsWithParams (engine : QueryEngine) (statements : List ParsedStatement)
    (params : List Value) : List ParsedStatement :=
  if params.isEmpty then engine.runs text order statements [] else statements.take 1

/-- Prepare a text, where so many statements are prepared already. -/
def prepare (prepared : ℕ) (statements : List ParsedStatement) :
    Except PrepareError ParsedStatement :=
  match statements with
  | [] => .error (.parse "empty statement")
  | statement :: _ =>
      match statement.plan [] with
      | .unplanned message => .error (.plan message)
      | _ =>
          if maxPreparedStatements ≤ prepared then
            .error (.plan ("too many prepared statements (limit 10000); deallocate some"))
          else .ok statement

/-- Serve a text without parameters. -/
def executeQuery (u : Uppercase) (engine : QueryEngine) (sql : String)
    (statements : List ParsedStatement) : Served :=
  let done := executeAll text order engine .start (statements.map fun statement =>
    statement.plan [])
  if done.2 = .ok ∧ isMutation u sql = true then ⟨done.1.1, done.2, true, emitCdcEvent u sql⟩
  else ⟨done.1.1, done.2, false, none⟩

/-- Serve a text with parameters. -/
def executeQueryWithParams (u : Uppercase) (engine : QueryEngine) (sql : String)
    (statements : List ParsedStatement) (params : List Value) : Served :=
  let done := executeWithParams text order u engine sql statements params
  ⟨done.1, done.2, false, none⟩

/-- Serve a text as it comes from a client. -/
def serve (u : Uppercase) (engine : QueryEngine) (sql : String)
    (statements : List ParsedStatement) (params : List Value) : Served :=
  if params.isEmpty then executeQuery text order u engine sql statements
  else executeQueryWithParams text order u engine sql statements params

end QueryEngine

/-! ## Keywords -/

section Keywords

variable (parser : SqlParser) {sql : String} {statements : List ParsedStatement}

theorem isMutation_of_gap
    (h : ∃ c ∈ (trimStart (parser.lead sql).1).head?, c = '-' ∨ c = '/' ∨ c = ';') :
    isMutation parser.uppercase sql = false := by
  obtain ⟨c, hc, hkind⟩ := h
  have hword : ∀ w ∈ mutationKeywords, parser.uppercase.startsWith sql w = false := by
    intro w hw
    have hhead : ∃ k ks, w.toList = k :: ks ∧ c.toUpper ≠ k := by
      fin_cases hw <;> rcases hkind with rfl | rfl | rfl <;> exact ⟨_, _, rfl, by decide⟩
    obtain ⟨k, ks, hlist, hne⟩ := hhead
    refine parser.uppercase.not_startsWith_of_head (parser.lead_append sql) hc ?_ hlist hne
    rcases hkind with rfl | rfl | rfl <;> decide
  rw [isMutation, List.any_eq_false]
  intro w hw
  rw [hword w hw]
  exact Bool.false_ne_true

theorem isMutation_of_blank (h : ∀ c ∈ (parser.lead sql).1, isWhitespace c = true)
    (hempty : (parser.lead sql).2 = []) : isMutation parser.uppercase sql = false := by
  have htrim : trimText sql.toList = [] := by
    obtain ⟨blank, happend, -⟩ := exists_trimText_append sql.toList
    rw [← parser.lead_append sql, trimStart_append h, hempty] at happend
    rw [← parser.lead_append sql, hempty]
    exact (List.append_eq_nil_iff.mp happend.symm).1
  simp [isMutation, mutationKeywords, Uppercase.startsWith, htrim, Uppercase.text]

theorem isMutation_iff_of_whitespace
    (hstart : ∃ c ∈ (parser.lead sql).2.head?, isWhitespace c = false)
    (hgap : ∀ c ∈ (parser.lead sql).1, isWhitespace c = true) :
    isMutation parser.uppercase sql = true ↔
      ∃ w ∈ mutationKeywords, beginsWith parser.uppercase (parser.lead sql).2 w := by
  rw [isMutation, List.any_eq_true]
  refine exists_congr fun w => and_congr_right fun hw => ?_
  refine parser.uppercase.startsWith_iff_of_whitespace (parser.lead_append sql) hgap hstart ?_
  fin_cases hw <;> decide

/-- No keyword begins with another. -/
theorem eq_of_prefix {v w : String} {t : List Char} (hv : v ∈ "REPLACE" :: mutationKeywords)
    (hw : w ∈ "REPLACE" :: mutationKeywords) (hvt : v.toList <+: t) (hwt : w.toList <+: t) :
    v = w := by
  have hfree : ∀ v ∈ "REPLACE" :: mutationKeywords, ∀ w ∈ "REPLACE" :: mutationKeywords,
      v.toList <+: w.toList → v = w := by
    decide
  rcases List.prefix_or_prefix_of_prefix hvt hwt with h | h
  · exact hfree v hv w hw h
  · exact (hfree w hw v hv h).symm

theorem beginsWith_replace {u : Uppercase} {t : List Char} {w : String} (hw : w ∈ mutationKeywords)
    (h : beginsWith u t w) : ¬ beginsWith u t "REPLACE" := by
  intro hreplace
  obtain rfl := eq_of_prefix (List.mem_cons_of_mem _ hw) List.mem_cons_self h hreplace
  revert hw
  decide

/-- The keyword that a text begins with decides what change event it causes. -/
theorem find_cdcKeywords {w : String} (hw : w ∈ mutationKeywords) {t : List Char}
    (h : w.toList <+: t) :
    (cdcKeywords.find? fun keyword => keyword.1.toList.isPrefixOf t) =
      cdcKeywords.find? fun keyword => keyword.1 == w := by
  refine List.find?_congr fun keyword hkeyword => ?_
  have hmem : keyword.1 ∈ mutationKeywords := by
    revert keyword
    decide
  rw [Bool.eq_iff_iff, List.isPrefixOf_iff_prefix, beq_iff_eq]
  constructor
  · intro hprefix
    exact eq_of_prefix (List.mem_cons_of_mem _ hmem) (List.mem_cons_of_mem _ hw) hprefix h
  · rintro rfl
    exact h

/-- If some statement of a text changes the database then the first does, with nothing but white
space in front, and not by `REPLACE`. -/
def MutatesFirst (sql : String) (statements : List ParsedStatement) : Prop :=
  (∃ s ∈ statements, s.isMutationStmt = true) →
    (∃ s ∈ statements.head?, s.isMutationStmt = true) ∧
      (∀ c ∈ (parser.lead sql).1, isWhitespace c = true) ∧
        ¬ beginsWith parser.uppercase (parser.lead sql).2 "REPLACE"

theorem isMutation_iff {statement : ParsedStatement} {rest : List ParsedStatement}
    (hparse : parser.parse sql = some (statement :: rest)) :
    isMutation parser.uppercase sql = true ↔
      statement.isMutationStmt = true ∧ (∀ c ∈ (parser.lead sql).1, isWhitespace c = true) ∧
        ¬ beginsWith parser.uppercase (parser.lead sql).2 "REPLACE" := by
  obtain ⟨hmutating, htruncate⟩ := parser.lead_word sql statement rest hparse
  have hstart := parser.lead_start sql statement rest hparse
  rw [hmutating]
  rcases parser.lead_gap sql _ hparse with hgap | hgap
  · rw [isMutation_iff_of_whitespace parser hstart hgap]
    constructor
    · rintro ⟨w, hw, hbegins⟩
      refine ⟨⟨w, ?_, hbegins⟩, hgap, beginsWith_replace hw hbegins⟩
      fin_cases hw
      all_goals first
        | exact absurd hbegins htruncate
        | decide
    · rintro ⟨⟨w, hw, hbegins⟩, -, hreplace⟩
      refine ⟨w, ?_, hbegins⟩
      fin_cases hw
      all_goals first
        | exact absurd hbegins hreplace
        | decide
  · rw [isMutation_of_gap parser hgap]
    refine iff_of_false Bool.false_ne_true ?_
    rintro ⟨-, hblank, -⟩
    obtain ⟨c, hc, hkind⟩ := hgap
    have hmem : c ∈ (parser.lead sql).1 := by
      have := List.mem_of_mem_head? hc
      exact (List.dropWhile_sublist _).subset this
    have := hblank c hmem
    rcases hkind with rfl | rfl | rfl <;> revert this <;> decide

/-- The text and its statements agree on whether it changes the database if and only if its first
statement shows it. -/
theorem isMutation_eq_iff (hparse : parser.parse sql = some statements) :
    isMutation parser.uppercase sql = statements.any ParsedStatement.isMutationStmt ↔
      MutatesFirst parser sql statements := by
  rw [Bool.eq_iff_iff, List.any_eq_true]
  cases statements with
  | nil =>
    have hnot : isMutation parser.uppercase sql = false := by
      rcases parser.lead_gap sql _ hparse with hgap | hgap
      · exact isMutation_of_blank parser hgap (parser.lead_empty sql hparse)
      · exact isMutation_of_gap parser hgap
    simp [MutatesFirst, hnot]
  | cons statement rest =>
    rw [isMutation_iff parser hparse]
    unfold MutatesFirst
    constructor
    · intro h hsome
      obtain ⟨hfirst, hgap, hreplace⟩ := h.mpr hsome
      exact ⟨⟨statement, rfl, hfirst⟩, hgap, hreplace⟩
    · intro h
      constructor
      · rintro ⟨hfirst, -, -⟩
        exact ⟨statement, List.mem_cons_self, hfirst⟩
      · intro hsome
        obtain ⟨⟨s, hs, hfirst⟩, hgap, hreplace⟩ := h hsome
        obtain rfl := Option.some.inj hs
        exact ⟨hfirst, hgap, hreplace⟩

/-- The words of statements are keywords, except `REPLACE`, and show the change event. -/
theorem words_spec (kind : StatementKind) : ∀ w ∈ kind.words, w ≠ "REPLACE" →
    w ∈ mutationKeywords ∧
      (cdcKeywords.find? fun keyword => keyword.1 == w).map Prod.snd = kind.changeType := by
  cases kind <;> decide

/-- A text that counts as a mutation because of its first statement causes the change event of that
statement. -/
theorem emitCdcEvent_eq {statement : ParsedStatement} {rest : List ParsedStatement}
    (hparse : parser.parse sql = some (statement :: rest))
    (hmutating : statement.isMutationStmt = true)
    (hfirst : MutatesFirst parser sql (statement :: rest)) :
    emitCdcEvent parser.uppercase sql = statement.kind.changeType := by
  obtain ⟨-, hgap, hreplace⟩ := hfirst ⟨statement, List.mem_cons_self, hmutating⟩
  obtain ⟨⟨w, hword, hbegins⟩, hlong⟩ := parser.lead_kind sql statement rest hparse hmutating
  have hne : w ≠ "REPLACE" := by
    rintro rfl
    exact hreplace hbegins
  obtain ⟨hw, hchange⟩ := words_spec statement.kind w hword hne
  have hstart := parser.lead_start sql statement rest hparse
  have htrimmed : w.toList <+: parser.uppercase.text (trimText sql.toList) := by
    have hsolid : w.toList.all (fun c => !isWhitespace c) = true := by
      fin_cases hw <;> decide
    exact List.isPrefixOf_iff_prefix.mp ((parser.uppercase.startsWith_iff_of_whitespace
      (parser.lead_append sql) hgap hstart hsolid).mpr hbegins)
  have hupper := parser.uppercase.prefix_text_take htrimmed (n := 12) (by fin_cases hw <;> decide)
  have hbytes : 6 < ((trimText sql.toList).map Char.utf8Size).sum := by
    refine hlong.trans_le ?_
    rw [← List.length_map (f := Char.utf8Size)]
    refine List.length_le_sum_of_one_le _ fun size hsize => ?_
    obtain ⟨c, -, rfl⟩ := List.mem_map.mp hsize
    exact c.utf8Size_pos
  simp only [emitCdcEvent, if_pos hbytes, find_cdcKeywords hw hupper, hchange]

end Keywords

/-! ## All statements -/

section Paths

variable (text : DebugText) (order : HashOrder) (engine : QueryEngine)
  (statements : List ParsedStatement) (params : List Value)

/-- A text has at most one statement, or the first fails as a script. -/
def RunsOne : Prop :=
  statements.length ≤ 1 ∨ ∃ s ∈ statements.head?,
    (engine.executeStatement text order .start (s.plan params)).2 ≠ .ok

/-- The loop over a script runs no statement but the first if and only if there is no other, or the
first fails. -/
theorem runs_take_iff :
    engine.runs text order statements params <+: statements.take 1 ↔
      RunsOne text order engine statements params := by
  cases statements with
  | nil => exact iff_of_true List.nil_prefix (.inl (Nat.zero_le _))
  | cons statement rest =>
    simp only [QueryEngine.runs, QueryEngine.runsFrom, RunsOne, List.head?_cons,
      List.take_succ_cons, List.take_zero, List.prefix_cons_inj, List.prefix_nil]
    cases rest with
    | nil =>
      refine iff_of_true ?_ (.inl (Nat.le_refl _))
      split <;> rfl
    | cons next rest =>
      cases hrun : engine.executeStatement text order .start (statement.plan params) with
      | mk done outcome =>
        cases outcome with
        | ok =>
          refine iff_of_false ?_ ?_
          · simp [QueryEngine.runsFrom]
          · rintro (hlength | ⟨s, hs, hfail⟩)
            · simp at hlength
            · obtain rfl := Option.some.inj hs
              rw [hrun] at hfail
              exact hfail rfl
        | err e => exact iff_of_true rfl (.inr ⟨statement, rfl, by simp [hrun]⟩)
        | panicked => exact iff_of_true rfl (.inr ⟨statement, rfl, by simp [hrun]⟩)

/-- What is stored is the database as it is, or nothing was changed and nothing stored. -/
def Persisted (before after : QueryEngine) : Prop :=
  (∀ stored ∈ after.file, stored = some (after.context.toSnapshot order)) ∨
    after.context.SameData before.context ∧ after.file = before.file

/-- A query that changed the database is stored and sent to the peers, and causes the change event
of its statement; one that did not is neither sent nor announced. -/
structure Served.Right (before : QueryEngine) (served : Served) : Prop where
  persisted : Persisted order before served.engine
  replicated : served.replicated = true ↔ ¬ served.engine.context.SameData before.context
  emitted : ∀ change, served.emitted = some change ↔
    ¬ served.engine.context.SameData before.context ∧
      ∃ s ∈ statements, s.kind.changeType = some change

/-- The text counts as a mutation exactly if one of its statements is one, it is served right, and
with parameters, or prepared, every statement is run that would be run without, unless the text is
rejected; what a prepared statement changes is stored. -/
structure Classified (u : Uppercase) (sql : String) (params : List Value) : Prop where
  mutation : isMutation u sql = statements.any ParsedStatement.isMutationStmt
  served : (QueryEngine.serve text order u engine sql statements params).Right order statements
    engine
  runsAll : engine.runs text order statements params <+:
    engine.runsWithParams text order statements params
  prepared : ∀ prepared s, QueryEngine.prepare prepared statements = .ok s →
    engine.runs text order statements params <+: [s] ∧
      Persisted order engine (engine.runPlan text order (isMutation u sql) (s.plan params)).1

/-- Without parameters a plan that changes the context does so exactly if it succeeds, and a database
that a transaction begins on can be put back; with parameters a plan changes nothing. -/
def ScriptStatement.Effective (context : ExecutionContext) : ScriptStatement → Prop
  | .change statement =>
      (context.execute text statement).1.SameData context ↔
        params ≠ [] ∨ ∃ e, (context.execute text statement).2 = .error e
  | .beginTransaction => params = [] → context.Restorable text
  | _ => True

/-- The first statement of a text is as effective as is made known of it. -/
def Effective : Prop :=
  ∀ s ∈ statements.head?, (s.plan params).Effective text params engine.context

end Paths

/-! ### Single statements -/

section Single

variable {text : DebugText} {order : HashOrder} {engine : QueryEngine}
  {statements : List ParsedStatement} {params : List Value}

theorem ParsedStatement.isMutationStmt_of_change {s : ParsedStatement} {statement : Statement}
    (hplan : s.plan params = .change statement) : s.isMutationStmt = true := by
  have hfits := s.plan_fits params
  rw [hplan] at hfits
  rw [isMutationStmt, hfits]
  cases statement <;> rfl

theorem ParsedStatement.isMutationStmt_of_query {s : ParsedStatement}
    {run : ExecutionContext → Except Failure QueryResult}
    (hplan : s.plan params = .query run) : s.isMutationStmt = false := by
  have hfits := s.plan_fits params
  rw [hplan] at hfits
  rw [isMutationStmt]
  rcases hfits with hkind | hkind <;> rw [hkind]

/-- A query of which nobody is told is served right if and only if it changed nothing. -/
theorem Served.right_iff_of_silent {after : QueryEngine} {outcome : Outcome}
    (hfile : after.file = engine.file ∨
      ∀ stored ∈ after.file, stored = some (after.context.toSnapshot order)) :
    (Served.mk after outcome false none).Right order statements engine ↔
      after.context.SameData engine.context := by
  constructor
  · intro hright
    by_contra hchanged
    exact Bool.false_ne_true (hright.replicated.mpr hchanged)
  · intro hsame
    refine ⟨?_, by simp [hsame], by simp [hsame]⟩
    rcases hfile with hfile | hfile
    · exact .inr ⟨hsame, hfile⟩
    · exact .inl hfile

/-- A query that is stored, sent and announced is served right if and only if it changed anything. -/
theorem Served.right_iff_of_known {after : QueryEngine} {outcome : Outcome}
    {change : Option ChangeType} {s : ParsedStatement} (hchange : change = s.kind.changeType)
    (hfile : ∀ stored ∈ after.file, stored = some (after.context.toSnapshot order)) :
    (Served.mk after outcome true change).Right order [s] engine ↔
      ¬ after.context.SameData engine.context := by
  constructor
  · intro hright
    exact hright.replicated.mp rfl
  · intro hchanged
    exact ⟨.inl hfile, by simp [hchanged], by simp [hchange, hchanged]⟩

theorem persist_file (stored : Option ExecutionContextSnapshot)
    (h : stored ∈ (engine.persist order).file) :
    stored = some ((engine.persist order).context.toSnapshot order) := by
  obtain ⟨file, -, rfl⟩ := Option.mem_map.mp h
  rfl

theorem executeQuery_of_fails {u : Uppercase} {sql : String} {s : ParsedStatement}
    {rest : List ParsedStatement} {done : QueryEngine × ScriptSession} {outcome : Outcome}
    (hstep : engine.executeStatement text order .start (s.plan []) = (done, outcome))
    (hfail : outcome ≠ .ok) :
    QueryEngine.executeQuery text order u engine sql (s :: rest) =
      ⟨done.1, outcome, false, none⟩ := by
  simp only [QueryEngine.executeQuery, List.map_cons, QueryEngine.executeAll, hstep]
  cases outcome with
  | ok => exact absurd rfl hfail
  | err e => simp
  | panicked => simp

theorem executeQuery_of_ok {u : Uppercase} {sql : String} {s : ParsedStatement}
    {done : QueryEngine × ScriptSession}
    (hstep : engine.executeStatement text order .start (s.plan []) = (done, .ok))
    (houtside : done.2.inTransaction = false) :
    QueryEngine.executeQuery text order u engine sql [s] =
      if isMutation u sql = true then ⟨done.1, .ok, true, emitCdcEvent u sql⟩
      else ⟨done.1, .ok, false, none⟩ := by
  simp [QueryEngine.executeQuery, QueryEngine.executeAll, QueryEngine.finishScript, hstep,
    houtside]

theorem executeQuery_right_of_fails {u : Uppercase} {sql : String} {s : ParsedStatement}
    {rest : List ParsedStatement} {done : QueryEngine × ScriptSession} {outcome : Outcome}
    (hstep : engine.executeStatement text order .start (s.plan []) = (done, outcome))
    (hfail : outcome ≠ .ok) (hfile : done.1.file = engine.file) :
    (QueryEngine.executeQuery text order u engine sql (s :: rest)).Right order statements engine ↔
      done.1.context.SameData engine.context := by
  rw [executeQuery_of_fails hstep hfail]
  exact Served.right_iff_of_silent (.inl hfile)

theorem RunsOne.eq_nil {s : ParsedStatement} {rest : List ParsedStatement}
    (hone : RunsOne text order engine (s :: rest) params)
    (hok : (engine.executeStatement text order .start (s.plan params)).2 = .ok) : rest = [] := by
  rcases hone with hlength | ⟨s', hs', hfail⟩
  · exact List.length_eq_zero_iff.mp (Nat.le_zero.mp (Nat.le_of_succ_le_succ hlength))
  · obtain rfl := Option.some.inj hs'
    exact absurd hok hfail

/-- What a plan outside of scripts leaves of the database. -/
theorem executePlan_frame (plan : ScriptStatement) :
    (engine.executePlan text plan).1.file = engine.file ∧
      ((∀ statement, plan ≠ .change statement) →
        (engine.executePlan text plan).1.context = engine.context) := by
  cases plan with
  | query run =>
    simp only [QueryEngine.executePlan]
    split <;> exact ⟨rfl, fun _ => rfl⟩
  | change statement =>
    refine ⟨?_, fun hnot => absurd rfl (hnot statement)⟩
    simp only [QueryEngine.executePlan]
    split <;> rfl
  | _ => exact ⟨rfl, fun _ => rfl⟩

theorem executePlan_change (statement : Statement) :
    (engine.executePlan text (.change statement)).1.context =
        (engine.context.execute text statement).1 ∧
      ((engine.executePlan text (.change statement)).2 = .ok ↔
        ¬ ∃ e, (engine.context.execute text statement).2 = .error e) := by
  simp only [QueryEngine.executePlan]
  split <;> simp_all

end Single

/-! ### Whole texts -/

section Texts

variable {parser : SqlParser} {sql : String} {statements : List ParsedStatement}
  {text : DebugText} {order : HashOrder} {engine : QueryEngine} {params : List Value}

/-- A query is served right: it changes nothing, and nobody is told. -/
theorem executeQuery_right_of_query {u : Uppercase} {s : ParsedStatement}
    {rest : List ParsedStatement} {run : ExecutionContext → Except Failure QueryResult}
    (hmutation : isMutation u sql = (s :: rest).any ParsedStatement.isMutationStmt)
    (hone : RunsOne text order engine (s :: rest) []) (hplan : s.plan [] = .query run) :
    (QueryEngine.executeQuery text order u engine sql (s :: rest)).Right order statements
      engine := by
  have hstep : engine.executeStatement text order .start (s.plan []) =
      engine.finishStatement text order .start false (run engine.context) := by rw [hplan]; rfl
  cases hrun : run engine.context with
  | error failure =>
    rw [hrun] at hstep
    cases failure with
    | panic => exact (executeQuery_right_of_fails hstep (by simp) rfl).mpr (.refl _)
    | error e => exact (executeQuery_right_of_fails hstep (by simp) rfl).mpr (.refl _)
  | ok result =>
    rw [hrun] at hstep
    obtain rfl := hone.eq_nil (congrArg Prod.snd hstep)
    rw [executeQuery_of_ok hstep rfl,
      if_neg (by simp [hmutation, s.isMutationStmt_of_query hplan])]
    exact (Served.right_iff_of_silent (.inl rfl)).mpr (.refl _)

/-- Without parameters, a text that shows its mutation and runs one statement is served right if and
only if that statement is as effective as is made known of it. -/
theorem executeQuery_right_iff (hparse : parser.parse sql = some statements)
    (hfirst : MutatesFirst parser sql statements)
    (hone : RunsOne text order engine statements []) :
    (QueryEngine.executeQuery text order parser.uppercase engine sql statements).Right order
        statements engine ↔
      Effective text engine statements [] := by
  have hmutation := (isMutation_eq_iff parser hparse).mpr hfirst
  cases statements with
  | nil =>
    have hserved : QueryEngine.executeQuery text order parser.uppercase engine sql [] =
        ⟨engine, .ok, false, none⟩ := by
      simp [QueryEngine.executeQuery, QueryEngine.executeAll, QueryEngine.finishScript,
        ScriptSession.start, hmutation]
    rw [hserved]
    refine iff_of_true ((Served.right_iff_of_silent (.inl rfl)).mpr (.refl _)) ?_
    intro s hs
    cases hs
  | cons s rest =>
    simp only [Effective, List.head?_cons, Option.mem_some_iff, forall_eq']
    cases hplan : s.plan [] with
    | beginTransaction =>
      obtain rfl := hone.eq_nil (by rw [hplan]; rfl)
      have hserved : QueryEngine.executeQuery text order parser.uppercase engine sql [s] =
          ⟨{ engine with
              context := (engine.context.beginSnapshot.restoreFromSnapshot text order
                (engine.context.toSnapshot order)).rollbackSnapshot },
            .err (.execute
              "Transaction was not committed (missing COMMIT). Changes rolled back."),
            false, none⟩ := by
        simp [QueryEngine.executeQuery, hplan, QueryEngine.executeAll,
          QueryEngine.executeStatement, QueryEngine.executeBegin, QueryEngine.finishScript,
          QueryEngine.rollBack, ScriptSession.start]
      rw [hserved]
      refine (Served.right_iff_of_silent ?_).trans ?_
      · exact .inl rfl
      refine Iff.trans ?_ (forall_prop_of_true rfl).symm
      rw [← ExecutionContext.restore_sameData_iff]
      exact ⟨fun h => ⟨h.tables, h.tableSchemas, h.indexes, h.managers⟩, (·.rollbackSnapshot)⟩
    | commitTransaction =>
      have hstep : engine.executeStatement text order .start (s.plan []) =
          ((engine, .start), .err (.execute "No transaction in progress")) := by rw [hplan]; rfl
      exact iff_of_true ((executeQuery_right_of_fails hstep (by simp) rfl).mpr (.refl _)) trivial
    | rollbackTransaction =>
      have hstep : engine.executeStatement text order .start (s.plan []) =
          ((engine, .start), .err (.execute "No transaction in progress")) := by rw [hplan]; rfl
      exact iff_of_true ((executeQuery_right_of_fails hstep (by simp) rfl).mpr (.refl _)) trivial
    | unplanned message =>
      have hstep : engine.executeStatement text order .start (s.plan []) =
          ((engine, .start), .err (.plan message)) := by rw [hplan]; rfl
      exact iff_of_true ((executeQuery_right_of_fails hstep (by simp) rfl).mpr (.refl _)) trivial
    | query run =>
      exact iff_of_true (executeQuery_right_of_query hmutation hone hplan) trivial
    | change statement =>
      have hmutating := s.isMutationStmt_of_change hplan
      have hstep : engine.executeStatement text order .start (s.plan []) =
          QueryEngine.finishStatement text order
            { engine with context := (engine.context.execute text statement).1 } .start true
            (engine.context.execute text statement).2 := by rw [hplan]; rfl
      simp only [ScriptStatement.Effective, ne_eq, not_true_eq_false, false_or]
      cases hrun : (engine.context.execute text statement).2 with
      | error failure =>
        rw [hrun] at hstep
        refine Iff.trans ?_ (iff_true_right ⟨failure, rfl⟩).symm
        cases failure with
        | panic => exact executeQuery_right_of_fails hstep (by simp) rfl
        | error e => exact executeQuery_right_of_fails hstep (by simp) rfl
      | ok result =>
        rw [hrun] at hstep
        obtain rfl := hone.eq_nil (congrArg Prod.snd hstep)
        rw [executeQuery_of_ok hstep rfl, if_pos (by simp [hmutation, hmutating])]
        refine Iff.trans ?_ (iff_false_right (by simp)).symm
        exact Served.right_iff_of_known (emitCdcEvent_eq parser hparse hmutating hfirst)
          persist_file

/-- With parameters, a text is served right if and only if its first statement changes nothing. -/
theorem executeQueryWithParams_right_iff {u : Uppercase} (hparams : params ≠ []) :
    (QueryEngine.executeQueryWithParams text order u engine sql statements params).Right order
        statements engine ↔
      Effective text engine statements params := by
  have hsome : ¬ params.isEmpty = true := by simpa using hparams
  cases statements with
  | nil =>
    simp only [QueryEngine.executeQueryWithParams, QueryEngine.executeWithParams, if_neg hsome]
    refine iff_of_true ((Served.right_iff_of_silent (.inl rfl)).mpr (.refl _)) ?_
    intro s hs
    cases hs
  | cons s rest =>
    simp only [QueryEngine.executeQueryWithParams, QueryEngine.executeWithParams, if_neg hsome,
      Effective, List.head?_cons, Option.mem_some_iff, forall_eq']
    have hcontext : (engine.runPlan text order (isMutation u sql) (s.plan params)).1.context =
        (engine.executePlan text (s.plan params)).1.context := by
      rw [QueryEngine.runPlan]
      dsimp only
      split_ifs <;> rfl
    refine (Served.right_iff_of_silent ?_).trans ?_
    · dsimp only [QueryEngine.runPlan]
      split_ifs
      · exact .inr persist_file
      · exact .inl (executePlan_frame _).1
    · rw [hcontext]
      cases hplan : s.plan params with
      | change statement =>
        rw [(executePlan_change statement).1, ScriptStatement.Effective]
        exact (iff_true_right (.inl hparams)).symm
      | beginTransaction =>
        rw [(executePlan_frame _).2 (by simp)]
        exact iff_of_true (.refl _) fun hnil => absurd hnil hparams
      | _ =>
        rw [(executePlan_frame _).2 (by simp)]
        exact iff_of_true (.refl _) trivial

/-- What an effective prepared statement changes is stored. -/
theorem runPlan_persisted (hparse : parser.parse sql = some statements)
    (hfirst : MutatesFirst parser sql statements)
    (heffective : Effective text engine statements params) {s : ParsedStatement}
    (hs : s ∈ statements.head?) :
    Persisted order engine
      (engine.runPlan text order (isMutation parser.uppercase sql) (s.plan params)).1 := by
  rw [QueryEngine.runPlan]
  dsimp only
  split_ifs with hstore
  · exact .inl persist_file
  · refine .inr ⟨?_, (executePlan_frame _).1⟩
    by_cases hchange : ∃ statement, s.plan params = .change statement
    · obtain ⟨statement, hplan⟩ := hchange
      have hmutation : isMutation parser.uppercase sql = true := by
        rw [(isMutation_eq_iff parser hparse).mpr hfirst, List.any_eq_true]
        exact ⟨s, List.mem_of_mem_head? hs, s.isMutationStmt_of_change hplan⟩
      have hthis := heffective s hs
      rw [hplan] at hthis hstore ⊢
      rw [(executePlan_change statement).1]
      refine hthis.mpr (.inr ?_)
      by_contra hok
      exact hstore ⟨hmutation, (executePlan_change statement).2.mpr hok⟩
    · rw [(executePlan_frame _).2 fun statement hplan => hchange ⟨statement, hplan⟩]

/-- Where the parameters are none, a text that is not rejected runs one statement if it does so when
it is prepared. -/
theorem runsOne_of_prepare
    (h : ∀ s, QueryEngine.prepare 0 statements = .ok s →
      engine.runs text order statements [] <+: [s]) :
    RunsOne text order engine statements [] := by
  cases statements with
  | nil => exact .inl (Nat.zero_le _)
  | cons s rest =>
    by_cases hplan : ∃ message, s.plan [] = .unplanned message
    · obtain ⟨message, hplan⟩ := hplan
      refine .inr ⟨s, rfl, ?_⟩
      rw [hplan]
      simp [QueryEngine.executeStatement]
    · refine (runs_take_iff text order engine (s :: rest) []).mp (h s ?_)
      simp only [QueryEngine.prepare]
      split
      · next message hthis => exact absurd ⟨message, hthis⟩ hplan
      · exact if_neg (by decide)

theorem mem_head?_of_prepare {prepared : ℕ} {s : ParsedStatement}
    (h : QueryEngine.prepare prepared statements = .ok s) : s ∈ statements.head? := by
  cases statements with
  | nil => cases h
  | cons statement rest =>
    simp only [QueryEngine.prepare] at h
    split at h
    · cases h
    · split_ifs at h
      obtain rfl := Except.ok.inj h
      rfl

end Texts

/-- A parser that accepts an insertion, and a deletion behind a comment. -/
def twoTexts : SqlParser where
  uppercase := .ascii
  parse sql :=
    if sql = "INSERT INTO t VALUES (1)" then
      some [⟨.insert, fun _ => .change (.insert ⟨"t", [], .values [[.literal (.integer 1)]]⟩),
        fun _ => rfl⟩]
    else if sql = "-- old\nDELETE FROM t" then
      some [⟨.delete, fun _ => .change (.delete ⟨"t", none⟩), fun _ => rfl⟩]
    else none
  lead sql :=
    if sql = "-- old\nDELETE FROM t" then ("-- old\n".toList, "DELETE FROM t".toList)
    else ([], sql.toList)
  lead_append sql := by
    split_ifs with h
    · rw [h]
      decide
    · rfl
  lead_gap sql statements h := by
    split_ifs at h ⊢
    all_goals first
      | exact .inr ⟨'-', by decide, .inl rfl⟩
      | exact .inl (by simp)
  lead_empty sql h := by
    split_ifs at h <;> simp at h
  lead_start sql statement rest h := by
    split_ifs at h with hinsert hdelete
    · subst hinsert
      exact ⟨'I', by decide, by decide⟩
    · subst hdelete
      exact ⟨'D', by decide, by decide⟩
  lead_word sql statement rest h := by
    split_ifs at h with hinsert hdelete
    · subst hinsert
      obtain ⟨rfl, -⟩ := List.cons.inj (Option.some.inj h)
      simp only [beginsWith]
      decide
    · subst hdelete
      obtain ⟨rfl, -⟩ := List.cons.inj (Option.some.inj h)
      simp only [beginsWith]
      decide
  lead_kind sql statement rest h _ := by
    split_ifs at h with hinsert hdelete
    · subst hinsert
      obtain ⟨rfl, -⟩ := List.cons.inj (Option.some.inj h)
      simp only [beginsWith]
      decide
    · subst hdelete
      obtain ⟨rfl, -⟩ := List.cons.inj (Option.some.inj h)
      simp only [beginsWith]
      decide

def noText : DebugText :=
  ⟨fun _ => "", fun _ => ""⟩

/-- An engine with an empty table, of which nothing is stored yet. -/
def tableEngine : QueryEngine where
  context := (ExecutionContext.new.execute noText (.createTable
    { tableName := "t"
      columns := [⟨"a", .integer, true, none, false, false⟩]
      constraints := []
      ifNotExists := false })).1
  file := some none

end Server

end AegisDB
