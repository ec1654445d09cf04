import AegisDB.Library.Wildcard
import AegisDB.Query.Value

/-!
# LIKE

`LIKE` turns its pattern into the text of a regular expression and then reads that text itself: it
cuts it at every `.*` and looks for the pieces one after the other.  So a pattern is read in a way
of its own (`asRead`).  A full stop and an underscore are both a full stop, and a wildcard if an
asterisk comes next; and a pattern with a wildcard is never held to the end of the text.
-/

namespace AegisDB

namespace Query

open Wildcard

/-! ## The executor -/

/-- A text with another one for every occurrence of a letter. -/
def replace (c : Char) (w : List Char) (s : List Char) : List Char :=
  s.flatMap fun d => if d = c then w else [d]

/-- The pieces between the occurrences of `.*`. -/
def splitDotStar : List Char → List (List Char)
  | [] => [[]]
  | [c] => [[c]]
  | c :: d :: s =>
      if c = '.' ∧ d = '*' then [] :: splitDotStar s
      else (splitDotStar (d :: s)).modifyHead (c :: ·)

/-- Whether the pieces from number `i` on are found one after the other behind a position. -/
def findParts (val : List Char) : ℕ → ℕ → List (List Char) → Bool
  | _, _, [] => true
  | i, pos, part :: parts =>
      if part = [] then findParts val (i + 1) pos parts
      else
        match firstAt part (val.drop pos) with
        | none => false
        | some found =>
            if i = 0 ∧ found ≠ 0 then false
            else findParts val (i + 1) (pos + (found + part.length)) parts

/-- The text of the regular expression that stands for a pattern, without its two ends. -/
def innerRegex (pattern : List Char) : List Char :=
  replace '_' ['.'] (replace '%' ['.', '*'] pattern)

/-- Whether a text is LIKE a pattern. -/
def likeMatches (val pattern : List Char) : Bool :=
  let regex := '^' :: (innerRegex pattern ++ ['$'])
  if regex = ['^', '.', '*', '$'] then true
  else if ['^'] <+: regex ∧ ['$'] <:+ regex then
    let inner := (regex.drop 1).dropLast
    if ['.', '*'] <:+: inner ∨ ['.'] <:+: inner then
      let parts := splitDotStar inner
      if parts.length = 1 then parts.head? = some val
      else findParts val 0 0 parts
    else val = inner
  else pattern <:+: val

/-- The text of an operand, or what the whole expression is for an operand without one. -/
def likeText (display : Value → String) : Value → Except Value String
  | .string s => .ok s
  | .null => .error .null
  | .array _ | .object _ => .error (.boolean false)
  | v => .ok (display v)

/-- `LIKE` and `NOT LIKE` for the values of both operands.  Everything but a string is shown by its
`display`. -/
def evaluateLike (display : Value → String) (negated : Bool) (val pattern : Value) : Value :=
  match likeText display val with
  | .error v => v
  | .ok val =>
      match likeText display pattern with
      | .error v => v
      | .ok pattern =>
          let isMatch := likeMatches val.toList pattern.toList
          .boolean (if negated then !isMatch else isMatch)

/-! ## What a pattern says -/

def sqlLetter (c : Char) : Wildcard Char :=
  if c = '%' then any else if c = '_' then one else letter c

def sqlPattern (pattern : List Char) : List (Wildcard Char) :=
  pattern.map sqlLetter

/-- `LIKE` and `NOT LIKE` hold of a string if it matches the pattern and if it does not. -/
def LikeAgrees (display : Value → String) (s pattern : String) : Prop :=
  ∀ negated, evaluateLike display negated (.string s) (.string pattern) =
    .boolean (negated != decide (Matches (sqlPattern pattern.toList) s.toList))

/-! ## How a pattern is read -/

def readLetter (c : Char) : Wildcard Char :=
  if c = '%' then any else if c = '_' then letter '.' else letter c

/-- A full stop or what becomes one, and an asterisk behind it. -/
def IsDotStar (c d : Char) : Prop :=
  (c = '_' ∨ c = '.') ∧ d = '*'

instance (c d : Char) : Decidable (IsDotStar c d) :=
  inferInstanceAs (Decidable ((c = '_' ∨ c = '.') ∧ d = '*'))

/-- What is made of the letters of a pattern. -/
def readLetters : List Char → List (Wildcard Char)
  | [] => []
  | [c] => [readLetter c]
  | c :: d :: pattern =>
      if IsDotStar c d then any :: readLetters pattern
      else readLetter c :: readLetters (d :: pattern)

/-- What the executor makes of a pattern: with a wildcard in it, anything may come behind. -/
def asRead (pattern : List Char) : List (Wildcard Char) :=
  if any ∈ readLetters pattern then readLetters pattern ++ [any] else readLetters pattern

/-- A pattern without an underscore, without a full stop in front of an asterisk, and with a
wildcard at its end if it has one at all. -/
structure ReadAsMeant (pattern : List Char) : Prop where
  noUnderscore : '_' ∉ pattern
  noDotStar : ¬ ['.', '*'] <:+: pattern
  openEnd : '%' ∈ pattern → pattern.getLast? = some '%'

variable {s pattern w : List Char} {parts : List (List Char)} {c d : Char} {pos i : ℕ}

/-! ## The search for the pieces -/

/-- Pieces with a wildcard in front of each of them. -/
def wildParts (parts : List (List Char)) : List (Wildcard Char) :=
  parts.flatMap fun w => any :: word w

theorem wildParts_nil : wildParts [] = [] :=
  rfl

theorem wildParts_cons : wildParts (w :: parts) = any :: (word w ++ wildParts parts) :=
  rfl

theorem wildParts_append_any (parts : List (List Char)) :
    ∃ p, wildParts parts ++ [any] = any :: p := by
  cases parts with
  | nil => exact ⟨[], rfl⟩
  | cons w parts => exact ⟨_, rfl⟩

/-- Behind a wildcard, the search decides whether the pieces are in the rest of the text in this
order. -/
theorem findParts_iff (hi : i ≠ 0) :
    findParts s i pos parts = true ↔ Matches (wildParts parts ++ [any]) (s.drop pos) := by
  induction parts generalizing i pos with
  | nil =>
    rw [findParts]
    exact iff_of_true rfl matches_any
  | cons w parts ih =>
    obtain ⟨p, hp⟩ := wildParts_append_any parts
    have hpattern : wildParts (w :: parts) ++ [any] = any :: (word w ++ any :: p) := by
      rw [wildParts_cons, List.cons_append, List.append_assoc, hp]
    rw [hpattern, matches_any_word_any, ← hp, findParts]
    split_ifs with hw
    · subst hw
      rw [ih (Nat.succ_ne_zero i)]
      have hfirst : firstAt [] (s.drop pos) = some 0 :=
        firstAt_eq_zero_iff.mpr (List.nil_prefix)
      constructor
      · intro h
        exact ⟨0, hfirst, h⟩
      · rintro ⟨k, hk, h⟩
        rw [hfirst] at hk
        obtain rfl : 0 = k := Option.some.inj hk
        exact h
    · cases hfound : firstAt w (s.drop pos) with
      | none => exact iff_of_false Bool.false_ne_true fun ⟨_, hk, _⟩ => nomatch hk
      | some found =>
        simp only [hi, false_and, if_false, Option.some.injEq, exists_eq_left', List.drop_drop]
        exact ih (Nat.succ_ne_zero i)

theorem findParts_zero_iff :
    findParts s 0 0 (w :: parts) = true ↔ Matches (word w ++ (wildParts parts ++ [any])) s := by
  rw [matches_word_append, findParts]
  split_ifs with hw
  · subst hw
    rw [findParts_iff Nat.one_ne_zero, List.drop_zero]
    constructor
    · intro h
      exact ⟨s, rfl, h⟩
    · rintro ⟨t, rfl, h⟩
      exact h
  · rw [List.drop_zero]
    by_cases hfront : w <+: s
    · rw [firstAt_eq_zero_iff.mpr hfront]
      obtain ⟨t, rfl⟩ := hfront
      simp only [ne_eq, not_true_eq_false, and_false, if_false, Nat.zero_add]
      rw [findParts_iff Nat.one_ne_zero, List.drop_left]
      constructor
      · intro h
        exact ⟨t, rfl, h⟩
      · rintro ⟨u, hu, h⟩
        rwa [List.append_cancel_left hu]
    · refine iff_of_false (fun h => ?_) fun ⟨t, ht, _⟩ => hfront ⟨t, ht.symm⟩
      cases hfound : firstAt w s with
      | none =>
        rw [hfound] at h
        cases h
      | some found =>
        have hne : found ≠ 0 := by
          rintro rfl
          exact hfront (firstAt_eq_zero_iff.mp hfound)
        simp only [hfound, true_and, if_pos hne, Bool.false_eq_true] at h

/-! ## The pieces of a pattern -/

/-- Pieces with a wildcard between any two of them. -/
def joinParts : List (List Char) → List (Wildcard Char)
  | [] => []
  | w :: parts => word w ++ wildParts parts

theorem splitDotStar_ne_nil (s : List Char) : splitDotStar s ≠ [] := by
  induction s using splitDotStar.induct with
  | case1 => exact List.cons_ne_nil _ _
  | case2 c => exact List.cons_ne_nil _ _
  | case3 c d s hdot ih =>
    rw [splitDotStar, if_pos hdot]
    exact List.cons_ne_nil _ _
  | case4 c d s hdot ih =>
    rw [splitDotStar, if_neg hdot]
    intro h
    exact ih (List.modifyHead_eq_nil_iff.mp h)

theorem joinParts_nil_cons (hne : parts ≠ []) :
    joinParts ([] :: parts) = any :: joinParts parts := by
  obtain ⟨w, parts, rfl⟩ := List.exists_cons_of_ne_nil hne
  rfl

theorem joinParts_modifyHead (hne : parts ≠ []) :
    joinParts (parts.modifyHead (c :: ·)) = letter c :: joinParts parts := by
  obtain ⟨w, parts, rfl⟩ := List.exists_cons_of_ne_nil hne
  rfl

theorem joinParts_splitDotStar_cons (h : c = '.' → s.head? ≠ some '*') :
    joinParts (splitDotStar (c :: s)) = letter c :: joinParts (splitDotStar s) := by
  cases s with
  | nil => rfl
  | cons d s =>
    have hdot : ¬ (c = '.' ∧ d = '*') := fun ⟨hc, hd⟩ => h hc (congrArg some hd)
    rw [splitDotStar, if_neg hdot, joinParts_modifyHead (splitDotStar_ne_nil _)]

theorem joinParts_splitDotStar_dotStar :
    joinParts (splitDotStar ('.' :: '*' :: s)) = any :: joinParts (splitDotStar s) := by
  rw [splitDotStar, if_pos ⟨rfl, rfl⟩, joinParts_nil_cons (splitDotStar_ne_nil _)]

/-- What the text of the regular expression has for a letter of a pattern. -/
def regexLetter (c : Char) : List Char :=
  if c = '%' then ['.', '*'] else if c = '_' then ['.'] else [c]

theorem innerRegex_eq (pattern : List Char) : innerRegex pattern = pattern.flatMap regexLetter := by
  rw [innerRegex, replace, replace, List.flatMap_assoc]
  congr 1
  funext c
  rw [regexLetter]
  by_cases hpercent : c = '%'
  · rw [if_pos hpercent, if_pos hpercent]
    rfl
  · rw [if_neg hpercent, if_neg hpercent, List.flatMap_singleton]

theorem innerRegex_cons : innerRegex (c :: pattern) = regexLetter c ++ innerRegex pattern := by
  rw [innerRegex_eq, innerRegex_eq, List.flatMap_cons]

theorem head_innerRegex : (innerRegex pattern).head? = some '*' ↔ pattern.head? = some '*' := by
  cases pattern with
  | nil => exact Iff.rfl
  | cons c pattern =>
    rw [innerRegex_cons, regexLetter]
    split_ifs with hpercent hunderscore
    · subst hpercent
      simp
    · subst hunderscore
      simp
    · exact Iff.rfl

theorem joinParts_splitDotStar_regexLetter
    (h : ∀ d, pattern.head? = some d → ¬ IsDotStar c d) :
    joinParts (splitDotStar (regexLetter c ++ innerRegex pattern)) =
      readLetter c :: joinParts (splitDotStar (innerRegex pattern)) := by
  have hstar : c = '_' ∨ c = '.' → (innerRegex pattern).head? ≠ some '*' := fun hc hhead =>
    h '*' (head_innerRegex.mp hhead) ⟨hc, rfl⟩
  rw [regexLetter, readLetter]
  split_ifs with hpercent hunderscore
  · exact joinParts_splitDotStar_dotStar
  · exact joinParts_splitDotStar_cons fun _ => hstar (Or.inl hunderscore)
  · exact joinParts_splitDotStar_cons fun hc => hstar (Or.inr hc)

/-- The pieces of the regular expression are those of the pattern as it is read. -/
theorem joinParts_splitDotStar_innerRegex (pattern : List Char) :
    joinParts (splitDotStar (innerRegex pattern)) = readLetters pattern := by
  induction pattern using readLetters.induct with
  | case1 => rfl
  | case2 c =>
    rw [innerRegex_cons, joinParts_splitDotStar_regexLetter (by simp), readLetters]
    rfl
  | case3 c d pattern hdot ih =>
    obtain ⟨hc, rfl⟩ := hdot
    have hregex : regexLetter c = ['.'] := by
      rcases hc with rfl | rfl <;> rfl
    rw [readLetters, if_pos ⟨hc, rfl⟩, ← ih, innerRegex_cons, innerRegex_cons, hregex]
    exact joinParts_splitDotStar_dotStar
  | case4 c d pattern hdot ih =>
    have hhead : ∀ e, (d :: pattern).head? = some e → ¬ IsDotStar c e := fun e he => by
      rwa [← Option.some.inj he]
    rw [readLetters, if_neg hdot, ← ih, innerRegex_cons,
      joinParts_splitDotStar_regexLetter hhead]

theorem any_notMem_word (w : List Char) : any ∉ word w := by
  intro h
  obtain ⟨c, -, hc⟩ := List.mem_map.mp h
  cases hc

theorem any_mem_joinParts (w : List Char) (parts : List (List Char)) :
    any ∈ joinParts (w :: parts) ↔ parts ≠ [] := by
  rw [joinParts, List.mem_append, or_iff_right (any_notMem_word w)]
  cases parts with
  | nil => exact iff_of_false (List.not_mem_nil) (fun h => h rfl)
  | cons v parts => exact iff_of_true List.mem_cons_self (List.cons_ne_nil v parts)

theorem splitDotStar_of_not_infix (h : ¬ ['.', '*'] <:+: s) : splitDotStar s = [s] := by
  induction s using splitDotStar.induct with
  | case1 => rfl
  | case2 c => rfl
  | case3 c d s hdot ih =>
    obtain ⟨rfl, rfl⟩ := hdot
    exact absurd ⟨[], s, rfl⟩ h
  | case4 c d s hdot ih =>
    rw [splitDotStar, if_neg hdot, ih fun hinfix => h (List.infix_cons hinfix)]
    rfl

/-! ## How a pattern is matched -/

theorem asRead_eq_of_splitDotStar (h : splitDotStar (innerRegex pattern) = w :: parts) :
    asRead pattern =
      if parts = [] then word w else word w ++ (wildParts parts ++ [any]) := by
  rw [asRead, ← joinParts_splitDotStar_innerRegex, h]
  simp only [any_mem_joinParts]
  by_cases hparts : parts = []
  · subst hparts
    rw [if_neg (fun hne => hne rfl), if_pos rfl, joinParts, wildParts_nil, List.append_nil]
  · rw [if_pos hparts, if_neg hparts, joinParts, List.append_assoc]

/-- **How `LIKE` matches.**  It matches the pattern as it is read, from end to end. -/
theorem likeMatches_iff (s pattern : List Char) :
    likeMatches s pattern = true ↔ Matches (asRead pattern) s := by
  obtain ⟨w, parts, hparts⟩ := List.exists_cons_of_ne_nil (splitDotStar_ne_nil (innerRegex pattern))
  rw [asRead_eq_of_splitDotStar hparts, likeMatches]
  have hends : ['^'] <+: '^' :: (innerRegex pattern ++ ['$']) ∧
      ['$'] <:+ '^' :: (innerRegex pattern ++ ['$']) :=
    ⟨⟨_, rfl⟩, ⟨'^' :: innerRegex pattern, rfl⟩⟩
  have hinner : (('^' :: (innerRegex pattern ++ ['$'])).drop 1).dropLast = innerRegex pattern := by
    rw [List.drop_one, List.tail_cons, List.dropLast_concat]
  simp only [if_pos hends, hinner, hparts]
  by_cases hall : '^' :: (innerRegex pattern ++ ['$']) = ['^', '.', '*', '$']
  · -- the pattern is a wildcard and nothing else
    rw [if_pos hall]
    have hregex : innerRegex pattern = ['.', '*'] :=
      List.append_cancel_right (List.cons.inj hall).2
    rw [hregex] at hparts
    obtain ⟨rfl, rfl⟩ := List.cons.inj hparts
    exact iff_of_true rfl (matches_any_cons.mpr ⟨s, List.suffix_rfl, matches_any⟩)
  rw [if_neg hall]
  by_cases hdot : ['.', '*'] <:+: innerRegex pattern ∨ ['.'] <:+: innerRegex pattern
  · rw [if_pos hdot]
    by_cases hnil : parts = []
    · subst hnil
      rw [if_pos (List.length_singleton), if_pos rfl, matches_word, decide_eq_true_iff,
        List.head?_cons, Option.some.injEq, eq_comm]
    · have hlength : (w :: parts).length ≠ 1 := fun h =>
        hnil (List.eq_nil_of_length_eq_zero (Nat.succ.inj h))
      rw [if_neg hlength, if_neg hnil, findParts_zero_iff]
  · rw [if_neg hdot]
    have hsingle := splitDotStar_of_not_infix fun h => hdot (Or.inl h)
    rw [hparts] at hsingle
    obtain ⟨rfl, rfl⟩ := List.cons.inj hsingle
    rw [if_pos rfl, matches_word, decide_eq_true_iff]

/-! ## Where a pattern is read as it is meant -/

variable {display : Value → String}

/-- On two strings, `LIKE` is wrong if what the pattern is read as and what it says differ there. -/
theorem likeAgrees_iff (display : Value → String) (s pattern : String) :
    LikeAgrees display s pattern ↔
      (Matches (asRead pattern.toList) s.toList ↔
        Matches (sqlPattern pattern.toList) s.toList) := by
  have hlike : ∀ negated, evaluateLike display negated (.string s) (.string pattern) =
      .boolean (negated != decide (Matches (asRead pattern.toList) s.toList)) := fun negated => by
    rw [evaluateLike, likeText, likeText]
    simp only [← likeMatches_iff, Bool.decide_eq_true]
    cases negated <;> simp
  rw [LikeAgrees]
  simp only [hlike, Value.boolean.injEq]
  constructor
  · intro h
    have hfalse := h false
    simpa using hfalse
  · intro h negated
    rw [decide_eq_decide.mpr h]

theorem readLetter_eq_sqlLetter (h : c ≠ '_') : readLetter c = sqlLetter c := by
  rw [readLetter, sqlLetter, if_neg h, if_neg h]

theorem map_readLetter_eq (h : '_' ∉ pattern) : pattern.map readLetter = sqlPattern pattern := by
  refine List.map_congr_left fun c hc => readLetter_eq_sqlLetter ?_
  rintro rfl
  exact h hc

theorem any_mem_sqlPattern : any ∈ sqlPattern pattern ↔ '%' ∈ pattern := by
  rw [sqlPattern, List.mem_map]
  constructor
  · rintro ⟨c, hc, hany⟩
    by_cases hpercent : c = '%'
    · exact hpercent ▸ hc
    · rw [sqlLetter, if_neg hpercent] at hany
      split_ifs at hany
  · intro h
    exact ⟨'%', h, rfl⟩

theorem readLetters_eq_map (hunderscore : '_' ∉ pattern) (hdot : ¬ ['.', '*'] <:+: pattern) :
    readLetters pattern = pattern.map readLetter := by
  induction pattern using readLetters.induct with
  | case1 => rfl
  | case2 c => rfl
  | case3 c d pattern hstar ih =>
    obtain ⟨rfl | rfl, rfl⟩ := hstar
    · exact absurd List.mem_cons_self hunderscore
    · exact absurd ⟨[], pattern, rfl⟩ hdot
  | case4 c d pattern hstar ih =>
    rw [readLetters, if_neg hstar, List.map_cons]
    rw [ih (fun h => hunderscore (List.mem_cons_of_mem c h))
      fun h => hdot (List.infix_cons h)]

theorem ReadAsMeant.matches_iff (h : ReadAsMeant pattern) (s : List Char) :
    Matches (asRead pattern) s ↔ Matches (sqlPattern pattern) s := by
  have hread : readLetters pattern = sqlPattern pattern := by
    rw [readLetters_eq_map h.noUnderscore h.noDotStar, map_readLetter_eq h.noUnderscore]
  rw [asRead, hread]
  split_ifs with hany
  · obtain ⟨front, rfl⟩ := List.getLast?_eq_some_iff.mp (h.openEnd (any_mem_sqlPattern.mp hany))
    have hend : sqlPattern (front ++ ['%']) = sqlPattern front ++ [any] := List.map_append
    rw [hend, matches_append_any_any]
  · exact Iff.rfl

theorem sqlLetter_eq_letter_iff (hpercent : d ≠ '%') (hunderscore : d ≠ '_') :
    sqlLetter c = letter d ↔ c = d := by
  rw [sqlLetter]
  split_ifs with hc hc
  · exact iff_of_false (fun h => nomatch h) (hc ▸ hpercent.symm)
  · exact iff_of_false (fun h => nomatch h) (hc ▸ hunderscore.symm)
  · rw [letter.injEq]

theorem readLetter_eq_dot_iff : readLetter c = letter '.' ↔ c = '.' ∨ c = '_' := by
  by_cases hunderscore : c = '_'
  · subst hunderscore
    exact iff_of_true rfl (Or.inr rfl)
  · rw [readLetter_eq_sqlLetter hunderscore, sqlLetter_eq_letter_iff (by decide) (by decide),
      or_iff_left hunderscore]

theorem readLetter_eq_star_iff : readLetter c = letter '*' ↔ c = '*' := by
  by_cases hunderscore : c = '_'
  · subst hunderscore
    exact iff_of_false (by decide) (by decide)
  · rw [readLetter_eq_sqlLetter hunderscore, sqlLetter_eq_letter_iff (by decide) (by decide)]

theorem count_sqlPattern (hpercent : d ≠ '%') (hunderscore : d ≠ '_') :
    (sqlPattern pattern).count (letter d) = pattern.count d := by
  rw [sqlPattern, count_map, List.count]
  refine List.countP_congr fun c _ => ?_
  rw [decide_eq_true_iff, beq_iff_eq, sqlLetter_eq_letter_iff hpercent hunderscore]

theorem count_map_readLetter_star :
    (pattern.map readLetter).count (letter '*') = pattern.count '*' := by
  rw [count_map, List.count]
  refine List.countP_congr fun c _ => ?_
  rw [decide_eq_true_iff, beq_iff_eq, readLetter_eq_star_iff]

theorem count_map_readLetter_dot :
    (pattern.map readLetter).count (letter '.') = pattern.count '.' + pattern.count '_' := by
  induction pattern with
  | nil => rfl
  | cons c pattern ih =>
    rw [List.map_cons, List.count_cons, List.count_cons, List.count_cons, ih]
    simp only [beq_iff_eq, readLetter_eq_dot_iff]
    -- no letter is a full stop and an underscore at once
    by_cases hdot : c = '.'
    · subst hdot
      rw [if_pos (Or.inl rfl), if_pos rfl, if_neg (by decide)]
      omega
    · simp only [hdot, false_or, if_false]
      omega

/-- A pattern is read letter by letter, or an asterisk gets lost. -/
theorem readLetters_eq_map_or_lt (pattern : List Char) :
    (readLetters pattern = pattern.map readLetter ∧ ¬ ['.', '*'] <:+: pattern) ∨
      (readLetters pattern).count (letter '*') < pattern.count '*' := by
  induction pattern using readLetters.induct with
  | case1 => exact Or.inl ⟨rfl, by decide⟩
  | case2 c =>
    refine Or.inl ⟨rfl, fun h => ?_⟩
    have hlen := h.length_le
    rw [List.length_singleton, List.length_cons, List.length_singleton] at hlen
    omega
  | case3 c d pattern hstar ih =>
    obtain ⟨hc, rfl⟩ := hstar
    right
    have hle : (readLetters pattern).count (letter '*') ≤ pattern.count '*' := by
      rcases ih with ⟨hread, -⟩ | hlt
      · rw [hread, count_map_readLetter_star]
      · exact hlt.le
    rw [readLetters, if_pos ⟨hc, rfl⟩, count_any_cons, List.count_cons, List.count_cons_self]
    omega
  | case4 c d pattern hstar ih =>
    rw [readLetters, if_neg hstar]
    rcases ih with ⟨hread, hinfix⟩ | hlt
    · refine Or.inl ⟨by rw [hread]; rfl, fun h => ?_⟩
      rcases List.infix_cons_iff.mp h with ⟨t, ht⟩ | h
      · obtain ⟨rfl, htail⟩ := List.cons.inj ht
        obtain ⟨rfl, -⟩ := List.cons.inj htail
        exact hstar ⟨Or.inr rfl, rfl⟩
      · exact hinfix h
    · right
      rw [List.count_cons, List.count_cons]
      simp only [beq_iff_eq, readLetter_eq_star_iff]
      omega

/-- If a pattern is read as it is meant on every text, it is one that is. -/
theorem readAsMeant_of_matches_iff
    (h : ∀ s, Matches (asRead pattern) s ↔ Matches (sqlPattern pattern) s) :
    ReadAsMeant pattern := by
  have hcount : ∀ d,
      (asRead pattern).count (letter d) = (readLetters pattern).count (letter d) := by
    intro d
    rw [asRead]
    split_ifs
    · rw [List.count_append, count_any_cons, List.count_nil, Nat.add_zero]
    · rfl
  -- the shortest text that is read needs the asterisks that are meant
  have hstar : pattern.count '*' ≤ (readLetters pattern).count (letter '*') := by
    have hmatch := (h _).mp (matches_shortest 'a' (asRead pattern))
    have hle := hmatch.count_le '*'
    rwa [count_shortest (by decide), hcount, count_sqlPattern (by decide) (by decide)] at hle
  obtain ⟨hread, hdot⟩ := (readLetters_eq_map_or_lt pattern).resolve_right (by omega)
  -- the shortest text that is meant needs the full stops that are read
  have hunderscore : '_' ∉ pattern := by
    have hmatch := (h _).mpr (matches_shortest 'a' (sqlPattern pattern))
    have hle := hmatch.count_le '.'
    rw [count_shortest (by decide), hcount, hread, count_map_readLetter_dot,
      count_sqlPattern (by decide) (by decide)] at hle
    exact List.count_eq_zero.mp (by omega)
  refine ⟨hunderscore, hdot, fun hpercent => ?_⟩
  have hasRead : asRead pattern = sqlPattern pattern ++ [any] := by
    rw [map_readLetter_eq hunderscore] at hread
    rw [asRead, hread, if_pos (any_mem_sqlPattern.mpr hpercent)]
  -- a text may go on with another letter than the last one of the pattern
  obtain ⟨front, c, rfl⟩ :=
    (List.eq_nil_or_concat' pattern).resolve_left (List.ne_nil_of_mem hpercent)
  rw [List.getLast?_concat, Option.some.injEq]
  by_contra hne
  have hc : sqlLetter c = letter c := by
    rw [sqlLetter, if_neg hne, if_neg (fun heq => hunderscore (by simp [heq]))]
  have hend : sqlPattern (front ++ [c]) = sqlPattern front ++ word [c] := by
    rw [sqlPattern, List.map_append, List.map_singleton, hc]
    rfl
  have : Nontrivial Char := ⟨'a', 'b', by decide⟩
  obtain ⟨d, hd⟩ : ∃ d, d ≠ c := exists_ne c
  have hshort := matches_shortest 'a' (sqlPattern (front ++ [c]))
  have hlong := (h (shortest 'a' (sqlPattern (front ++ [c])) ++ [d])).mp (by
    rw [hasRead]
    exact matches_append_any.mpr ⟨_, List.prefix_append _ _, hshort⟩)
  rw [hend] at hlong
  obtain ⟨t, u, htext, -, hlast⟩ := matches_append.mp hlong
  rw [matches_word.mp hlast] at htext
  exact hd (List.cons.inj (List.append_inj_right' htext rfl)).1

/-- **When `LIKE` is right.**  On two strings it is exactly if the pattern as it is read and what
the pattern says agree on the one string.  A pattern is right on every string exactly if it has no
underscore and no full stop in front of an asterisk and ends with a wildcard if it has one. -/
theorem likeAgrees_iff_readAsMeant (display : Value → String) :
    (∀ s pattern, LikeAgrees display s pattern ↔
      (Matches (asRead pattern.toList) s.toList ↔
        Matches (sqlPattern pattern.toList) s.toList)) ∧
    ∀ pattern, (∀ s, LikeAgrees display s pattern) ↔ ReadAsMeant pattern.toList := by
  refine ⟨likeAgrees_iff display, fun pattern => ?_⟩
  simp only [likeAgrees_iff]
  constructor
  · intro h
    refine readAsMeant_of_matches_iff fun s => ?_
    have hs := h (String.ofList s)
    rwa [String.toList_ofList] at hs
  · intro h s
    exact h.matches_iff s.toList

/-- A text that goes on behind the pattern, and a pattern of one underscore. -/
theorem not_likeAgrees :
    ¬ LikeAgrees (fun _ => "") "hello world" "hello%wor" ∧ ¬ LikeAgrees (fun _ => "") "a" "_" := by
  constructor
  · intro h
    have hfalse := h false
    revert hfalse
    decide +kernel
  · intro h
    have hfalse := h false
    revert hfalse
    decide +kernel

end Query

end AegisDB
