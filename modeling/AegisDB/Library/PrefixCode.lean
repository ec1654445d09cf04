import AegisDB.Library.Bytes
import AegisDB.Library.Json

/-!
# Codes that tell where they end

Texts as bytes, and codes of values as words over an alphabet that a reader takes off the front of
what it is given, whatever comes behind.  The codes of pairs, lists and tables are made from the
codes of their parts; a list is told from what follows by a mark in front of each element and
another behind the last.
-/

namespace AegisDB

/-! ## Texts as bytes -/

def bytesOf (text : String) : Bytes :=
  text.toByteArray.data.toList

/-- The text of some bytes, if they are the bytes of one. -/
def textOf (bytes : Bytes) : Option String :=
  String.fromUTF8? ⟨bytes.toArray⟩

@[simp] theorem textOf_bytesOf (text : String) : textOf (bytesOf text) = some text := by
  have hbytes : (⟨(bytesOf text).toArray⟩ : ByteArray) = text.toByteArray := rfl
  rw [textOf, hbytes, String.fromUTF8?, dif_pos text.isValidUTF8, String.fromUTF8]

/-! ## Codes -/

/-- A code of values as words, which is read off the front of a word. -/
structure PrefixCode (σ α : Type*) where
  write : α → List σ
  read : List σ → Option (α × List σ)
  read_write : ∀ a rest, read (write a ++ rest) = some (a, rest)

namespace PrefixCode

variable {σ α β : Type*}

/-- A letter is its own word. -/
def symbol : PrefixCode σ σ where
  write c := [c]
  read
    | [] => none
    | c :: rest => some (c, rest)
  read_write _ _ := rfl

/-- The values of another type that can be told apart as values of this type. -/
def map (f : α → β) (g : β → α) (h : ∀ b, f (g b) = b) (code : PrefixCode σ α) :
    PrefixCode σ β where
  write b := code.write (g b)
  read input := (code.read input).map fun r => (f r.1, r.2)
  read_write b rest := by rw [code.read_write, Option.map_some, h]

/-- One value after the other. -/
def pair (first : PrefixCode σ α) (second : PrefixCode σ β) : PrefixCode σ (α × β) where
  write p := first.write p.1 ++ second.write p.2
  read input := (first.read input).bind fun r =>
    (second.read r.2).map fun r' => ((r.1, r'.1), r'.2)
  read_write p rest := by
    rw [List.append_assoc, first.read_write, Option.bind_some, second.read_write, Option.map_some]

section List

variable [DecidableEq σ] (more stop : σ) (code : PrefixCode σ α)

/-- Each element behind a mark, and another mark behind all. -/
def writeList (l : List α) : List σ :=
  l.flatMap (fun a => more :: code.write a) ++ [stop]

/-- Read elements until the other mark; so many letters are looked at. -/
def readList : ℕ → List σ → Option (List α × List σ)
  | 0, _ => none
  | _ + 1, [] => none
  | fuel + 1, c :: rest =>
    if c = stop then some ([], rest)
    else if c = more then
      (code.read rest).bind fun r => (readList fuel r.2).map fun r' => (r.1 :: r'.1, r'.2)
    else none

omit [DecidableEq σ] in
theorem length_lt_writeList (l : List α) : l.length < (writeList more stop code l).length := by
  induction l with
  | nil => exact Nat.zero_lt_one
  | cons a l ih =>
    rw [writeList, List.flatMap_cons, List.append_assoc, List.length_append, ← writeList]
    rw [List.length_cons, List.length_cons]
    omega

theorem readList_writeList (hmarks : more ≠ stop) {l : List α} {fuel : ℕ} (hfuel : l.length < fuel)
    (rest : List σ) :
    readList more stop code fuel (writeList more stop code l ++ rest) = some (l, rest) := by
  induction l generalizing fuel with
  | nil =>
    obtain ⟨fuel, rfl⟩ := Nat.exists_eq_succ_of_ne_zero (Nat.ne_of_gt hfuel)
    exact if_pos rfl
  | cons a l ih =>
    obtain ⟨fuel, rfl⟩ := Nat.exists_eq_succ_of_ne_zero (Nat.ne_of_gt (Nat.zero_lt_of_lt hfuel))
    have hword : writeList more stop code (a :: l) ++ rest =
        more :: (code.write a ++ (writeList more stop code l ++ rest)) := by
      simp only [writeList, List.flatMap_cons, List.append_assoc, List.cons_append]
    rw [hword, readList, if_neg hmarks, if_pos rfl, code.read_write, Option.bind_some,
      ih (Nat.lt_of_succ_lt_succ hfuel), Option.map_some]

/-- Lists of values. -/
def list (hmarks : more ≠ stop) : PrefixCode σ (List α) where
  write := writeList more stop code
  read input := readList more stop code input.length input
  read_write l rest := by
    refine readList_writeList more stop code hmarks ?_ rest
    have hlength := length_lt_writeList more stop code l
    rw [List.length_append]
    omega

end List

def nat [DecidableEq σ] (more stop : σ) (hmarks : more ≠ stop) : PrefixCode σ ℕ :=
  map List.length (fun n => List.replicate n ()) (fun _ => List.length_replicate)
    (list more stop { write := fun _ => [], read := fun w => some ((), w),
                      read_write := fun _ _ => rfl } hmarks)

theorem marks_ne : '1' ≠ '0' := by
  decide

def text : PrefixCode Char String :=
  map String.ofList String.toList (fun _ => String.ofList_toList) (list '1' '0' symbol marks_ne)

/-- Bytes, as the letters with their numbers. -/
def bytes : PrefixCode Char Bytes :=
  list '1' '0' (map (fun c => UInt8.ofNat c.toNat) (fun b => Char.ofNat b.toNat)
    (fun b => by
      have hvalid : b.toNat.isValidChar := Or.inl (b.toNat_lt.trans (by decide))
      have hletter : (Char.ofNat b.toNat).toNat = b.toNat := by
        rw [Char.ofNat, dif_pos hvalid]
        exact UInt32.toNat_ofNatLT
      rw [hletter, UInt8.ofNat_toNat]) symbol) marks_ne

/-- Tables, as the lists of their entries. -/
def table [DecidableEq α] (key : PrefixCode Char α) (value : PrefixCode Char β) :
    PrefixCode Char (Table α β) :=
  map (fun l => (l.map fun e => (⟨e.1, e.2⟩ : Sigma fun _ : α => β)).toAList)
    (fun t => t.entries.map fun e => (e.1, e.2))
    (fun t => by
      rw [List.map_map]
      exact (congrArg List.toAList (List.map_id _)).trans (Json.toAList_entries t))
    (list '1' '0' (key.pair value) marks_ne)

/-- The word of a value and nothing else, as a text. -/
def print (code : PrefixCode Char α) (a : α) : String :=
  String.ofList (code.write a)

def parse (code : PrefixCode Char α) (text : String) : Option α :=
  (code.read text.toList).bind fun r => if r.2 = [] then some r.1 else none

theorem parse_print (code : PrefixCode Char α) (a : α) : code.parse (code.print a) = some a := by
  have hread := code.read_write a []
  rw [List.append_nil] at hread
  rw [parse, print, String.toList_ofList, hread, Option.bind_some, if_pos rfl]

end PrefixCode

end AegisDB
