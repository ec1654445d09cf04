import Mathlib.Data.List.TakeWhile
import Mathlib.Tactic

/-!
# Texts in upper case

Trimming of white space, and upper case, as Unicode has them.  The upper case of a character may be
more than one character, but not none; of ASCII characters it is the one everybody expects, and
nothing else is assumed.  Whether a text begins with a keyword whatever its case is decided by its trimmed upper
case.
-/

namespace AegisDB

/-- The characters with the Unicode property `White_Space`. -/
def isWhitespace (c : Char) : Bool :=
  let n := c.toNat
  (9 ≤ n && n ≤ 13) || n == 0x20 || n == 0x85 || n == 0xA0 || n == 0x1680 ||
    (0x2000 ≤ n && n ≤ 0x200A) || n == 0x2028 || n == 0x2029 || n == 0x202F || n == 0x205F ||
    n == 0x3000

def trimStart (text : List Char) : List Char :=
  text.dropWhile isWhitespace

/-- Without the white space in front and behind. -/
def trimText (text : List Char) : List Char :=
  (trimStart (trimStart text).reverse).reverse

theorem exists_trimText_append (text : List Char) :
    ∃ blank, trimStart text = trimText text ++ blank ∧ ∀ c ∈ blank, isWhitespace c = true := by
  refine ⟨((trimStart text).reverse.takeWhile isWhitespace).reverse, ?_, fun c hc => ?_⟩
  · rw [trimText, ← List.reverse_append]
    change _ = (List.takeWhile isWhitespace (trimStart text).reverse ++
      List.dropWhile isWhitespace (trimStart text).reverse).reverse
    rw [List.takeWhile_append_dropWhile, List.reverse_reverse]
  · exact List.mem_takeWhile_imp (List.mem_reverse.mp hc)

theorem trimStart_append {blank : List Char} (h : ∀ c ∈ blank, isWhitespace c = true)
    (text : List Char) : trimStart (blank ++ text) = trimStart text := by
  induction blank with
  | nil => rfl
  | cons c blank ih =>
    rw [List.cons_append, trimStart, List.dropWhile_cons_of_pos (h c List.mem_cons_self)]
    exact ih fun d hd => h d (List.mem_cons_of_mem _ hd)

theorem trimStart_append_of_head {front : List Char} {c : Char} (h : c ∈ (trimStart front).head?)
    (text : List Char) : trimStart (front ++ text) = trimStart front ++ text := by
  induction front with
  | nil => cases h
  | cons d front ih =>
    rw [List.cons_append]
    by_cases hd : isWhitespace d = true
    · simp only [trimStart, List.dropWhile_cons_of_pos hd] at h ⊢
      exact ih h
    · simp only [trimStart, List.dropWhile_cons_of_neg hd, List.cons_append]

theorem prefix_of_prefix_append {w a b : List Char} (h : w <+: a ++ b)
    (hw : ∀ c ∈ w, isWhitespace c = false) (hb : ∀ c ∈ b, isWhitespace c = true) : w <+: a := by
  rcases Nat.le_total w.length a.length with hle | hle
  · exact List.prefix_of_prefix_length_le h (List.prefix_append a b) hle
  · obtain ⟨rest, rfl⟩ := List.prefix_of_prefix_length_le (List.prefix_append a b) h hle
    have hrest : rest <+: b := (List.prefix_append_right_inj a).mp h
    cases rest with
    | nil => rw [List.append_nil]
    | cons c rest =>
      have hblank := hb c (hrest.subset List.mem_cons_self)
      rw [hw c (List.mem_append_right _ List.mem_cons_self)] at hblank
      cases hblank

/-- An upper case of characters. -/
structure Uppercase where
  char : Char → List Char
  char_ne_nil : ∀ c, char c ≠ []
  char_ascii : ∀ c : Char, c.toNat < 128 → char c = [c.toUpper]
  char_whitespace : ∀ c : Char, isWhitespace c = true → char c = [c]

namespace Uppercase

variable (u : Uppercase)

theorem toUpper_of_isWhitespace {c : Char} (h : isWhitespace c = true) : c.toUpper = c := by
  refine dif_neg fun hsmall => ?_
  have hlow : 97 ≤ c.toNat := hsmall.1
  have hhigh : c.toNat ≤ 122 := hsmall.2
  simp [isWhitespace] at h
  omega

/-- The upper case of ASCII characters; all others stay what they are. -/
def ascii : Uppercase where
  char c := [c.toUpper]
  char_ne_nil _ := List.cons_ne_nil _ _
  char_ascii _ _ := rfl
  char_whitespace _ h := by rw [toUpper_of_isWhitespace h]

def text (t : List Char) : List Char :=
  t.flatMap u.char

/-- Whether a text, trimmed and in upper case, begins with a keyword. -/
def startsWith (t : String) (keyword : String) : Bool :=
  keyword.toList.isPrefixOf (u.text (trimText t.toList))

theorem text_append (s t : List Char) : u.text (s ++ t) = u.text s ++ u.text t :=
  List.flatMap_append

theorem text_eq_self {t : List Char}
    (h : t.all (fun c => decide (c.toNat < 128 ∧ c.toUpper = c)) = true) : u.text t = t := by
  induction t with
  | nil => rfl
  | cons c t ih =>
    rw [List.all_cons, Bool.and_eq_true, decide_eq_true_eq] at h
    obtain ⟨⟨hascii, hupper⟩, h⟩ := h
    rw [text, List.flatMap_cons, u.char_ascii c hascii, hupper]
    exact congrArg (c :: ·) (ih h)

theorem text_of_whitespace {t : List Char} (h : ∀ c ∈ t, isWhitespace c = true) :
    u.text t = t := by
  induction t with
  | nil => rfl
  | cons c t ih =>
    rw [text, List.flatMap_cons, u.char_whitespace c (h c List.mem_cons_self)]
    exact congrArg (c :: ·) (ih fun d hd => h d (List.mem_cons_of_mem _ hd))

/-- Upper case does not make a text shorter. -/
theorem length_le_length_text (t : List Char) : t.length ≤ (u.text t).length := by
  induction t with
  | nil => exact Nat.zero_le _
  | cons c t ih =>
    have hchar := List.length_pos_iff.mpr (u.char_ne_nil c)
    rw [text, List.flatMap_cons, List.length_append, List.length_cons]
    exact (Nat.add_le_add ih hchar).trans (Nat.le_of_eq (Nat.add_comm _ _))

/-- A word that a text begins with is found in as many of its characters as the word has. -/
theorem prefix_text_take {w t : List Char} {n : ℕ} (h : w <+: u.text t) (hn : w.length ≤ n) :
    w <+: u.text (t.take n) := by
  rcases Nat.le_total t.length n with hle | hle
  · rwa [List.take_of_length_le hle]
  · have htake : u.text (t.take n) <+: u.text t := by
      refine ⟨u.text (t.drop n), ?_⟩
      rw [← text_append, List.take_append_drop]
    refine List.prefix_of_prefix_length_le h htake (hn.trans ?_)
    have hlength := u.length_le_length_text (t.take n)
    rwa [List.length_take, Nat.min_eq_left hle] at hlength

variable {sql keyword : String} {front rest : List Char}

theorem startsWith_iff_of_whitespace (hsql : front ++ rest = sql.toList)
    (hfront : ∀ c ∈ front, isWhitespace c = true) (hrest : ∃ c ∈ rest.head?, isWhitespace c = false)
    (hkeyword : keyword.toList.all (fun c => !isWhitespace c) = true) :
    u.startsWith sql keyword = true ↔ keyword.toList <+: u.text rest := by
  have htrim : trimStart sql.toList = rest := by
    rw [← hsql, trimStart_append hfront]
    cases rest with
    | nil => rfl
    | cons c rest =>
      obtain ⟨d, hd, hblank⟩ := hrest
      obtain rfl := Option.some.inj hd
      exact List.dropWhile_cons_of_neg (by simp [hblank])
  obtain ⟨blank, happend, hblank⟩ := exists_trimText_append sql.toList
  rw [htrim] at happend
  have htext : u.text rest = u.text (trimText sql.toList) ++ blank := by
    rw [happend, text_append, u.text_of_whitespace hblank]
  rw [startsWith, List.isPrefixOf_iff_prefix, htext]
  have hsolid : ∀ c ∈ keyword.toList, isWhitespace c = false :=
    fun c hc => by simpa using List.all_eq_true.mp hkeyword c hc
  exact ⟨fun h => h.trans (List.prefix_append _ _),
    fun h => prefix_of_prefix_append h hsolid hblank⟩

/-- A text that begins with another character does not begin with the keyword. -/
theorem not_startsWith_of_head (hsql : front ++ rest = sql.toList) {c k : Char} {ks : List Char}
    (hc : c ∈ (trimStart front).head?) (hascii : c.toNat < 128)
    (hkeyword : keyword.toList = k :: ks) (hne : c.toUpper ≠ k) :
    u.startsWith sql keyword = false := by
  have hhead : c ∈ (trimStart sql.toList).head? := by
    rw [← hsql, trimStart_append_of_head hc, List.head?_append, hc]
    rfl
  have hsolid : isWhitespace c = false := by
    have := List.head?_dropWhile_not isWhitespace sql.toList
    rw [show List.dropWhile isWhitespace sql.toList = trimStart sql.toList from rfl, hhead] at this
    simpa using this
  obtain ⟨blank, happend, hblank⟩ := exists_trimText_append sql.toList
  cases htrim : trimText sql.toList with
  | nil =>
    rw [htrim, List.nil_append] at happend
    rw [happend] at hhead
    have := hblank c (List.mem_of_mem_head? hhead)
    rw [hsolid] at this
    cases this
  | cons d t =>
    rw [happend, htrim] at hhead
    obtain rfl := Option.some.inj hhead
    rw [startsWith, htrim, text, List.flatMap_cons, u.char_ascii d hascii, hkeyword]
    simp [List.isPrefixOf, Ne.symm hne]

end Uppercase

end AegisDB
