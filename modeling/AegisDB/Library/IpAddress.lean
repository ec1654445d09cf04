import AegisDB.Library.Text
import Mathlib.Data.List.TakeWhile

/-!
# Internet addresses and their texts

An address has four bytes, or eight groups of two bytes.  A text is read as an address if all of it
is one: four decimal numbers without needless zeros, or up to eight hexadecimal groups, of which one
run of zeros may be left out and the last two may stand as an address of four bytes.  An address is
written in one way, with its longest run of zeros left out.
-/

namespace AegisDB

/-- An address of version 6. -/
structure Ipv6Addr where
  segments : List UInt16
  length_eq : segments.length = 8
deriving DecidableEq

/-- An internet address. -/
inductive IpAddr where
  | v4 (a b c d : UInt8)
  | v6 (addr : Ipv6Addr)
deriving DecidableEq

/-! ## Reading -/

/-- The value of a digit. -/
def toDigit (radix : ℕ) (c : Char) : Option ℕ :=
  let n := c.toNat
  let digit :=
    if 48 ≤ n ∧ n ≤ 57 then some (n - 48)
    else if 97 ≤ n ∧ n ≤ 122 then some (n - 87)
    else if 65 ≤ n ∧ n ≤ 90 then some (n - 55)
    else none
  digit.filter (· < radix)

/-- Read a number of at most so many digits. -/
def readNumber (radix maxDigits bound : ℕ) (allowZeroPrefix : Bool) (s : List Char) :
    Option (ℕ × List Char) :=
  let isDigit (c : Char) : Bool := (toDigit radix c).isSome
  let digits := s.takeWhile isDigit
  let number := digits.foldl (fun n c => n * radix + (toDigit radix c).getD 0) 0
  if digits = [] ∨ maxDigits < digits.length then none
  else if !allowZeroPrefix && digits.head? == some '0' && digits.length > 1 then none
  else if number ≤ bound then some (number, s.dropWhile isDigit)
  else none

def readChar (c : Char) : List Char → Option (List Char)
  | [] => none
  | d :: s => if d = c then some s else none

/-- Read what stands at a place of a list with separators: before the first there is none. -/
def readSeparator {α : Type} (c : Char) (i : ℕ) (read : List Char → Option (α × List Char))
    (s : List Char) : Option (α × List Char) :=
  if i = 0 then read s else (readChar c s).bind read

def readOctet (i : ℕ) (s : List Char) : Option (UInt8 × List Char) :=
  (readSeparator '.' i (readNumber 10 3 255 false) s).map fun r => (UInt8.ofNat r.1, r.2)

/-- Read an address of four bytes. -/
def readIpv4 (s : List Char) : Option ((UInt8 × UInt8 × UInt8 × UInt8) × List Char) := do
  let (a, s) ← readOctet 0 s
  let (b, s) ← readOctet 1 s
  let (c, s) ← readOctet 2 s
  let (d, s) ← readOctet 3 s
  return ((a, b, c, d), s)

def groupOf (hi lo : UInt8) : UInt16 :=
  hi.toUInt16 * 256 + lo.toUInt16

/-- Read at most so many groups from a place on: the groups, whether an address of four bytes stands
for the last two, and the rest of the text. -/
def readGroups : ℕ → ℕ → List Char → List UInt16 × Bool × List Char
  | 0, _, s => ([], false, s)
  | left + 1, i, s =>
      match (if left = 0 then none else readSeparator ':' i readIpv4 s) with
      | some ((a, b, c, d), rest) => ([groupOf a b, groupOf c d], true, rest)
      | none =>
          match readSeparator ':' i (readNumber 16 4 65535 true) s with
          | some (g, rest) =>
              let done := readGroups left (i + 1) rest
              (UInt16.ofNat g :: done.1, done.2)
          | none => ([], false, s)

/-- Read an address of version 6. -/
def readIpv6 (s : List Char) : Option (Ipv6Addr × List Char) :=
  let head := readGroups 8 0 s
  if h : head.1.length = 8 then some (⟨head.1, h⟩, head.2.2)
  else if head.2.1 then none
  else do
    let rest ← readChar ':' head.2.2
    let rest ← readChar ':' rest
    let tail := readGroups (8 - (head.1.length + 1)) 0 rest
    let zeros := List.replicate (8 - (head.1.length + tail.1.length)) 0
    let segments := head.1 ++ zeros ++ tail.1
    if h : segments.length = 8 then some (⟨segments, h⟩, tail.2.2) else none

/-- The address that a text is read as. -/
def parseIpAddr (s : List Char) : Option IpAddr :=
  let parsed : Option (IpAddr × List Char) :=
    match readIpv4 s with
    | some ((a, b, c, d), rest) => some (.v4 a b c d, rest)
    | none => (readIpv6 s).map fun (addr, rest) => (.v6 addr, rest)
  match parsed with
  | some (addr, []) => some addr
  | _ => none

/-! ## Writing -/

def ipv4Text (a b c d : UInt8) : String :=
  ".".intercalate ([a, b, c, d].map fun n => toString n.toNat)

namespace Ipv6Addr

variable (addr : Ipv6Addr)

/-- The address of four bytes that an address of version 6 stands for. -/
def toIpv4Mapped : Option (UInt8 × UInt8 × UInt8 × UInt8) :=
  match addr.segments with
  | [0, 0, 0, 0, 0, 65535, ab, cd] =>
      some ((ab / 256).toUInt8, ab.toUInt8, (cd / 256).toUInt8, cd.toUInt8)
  | _ => none

/-- The longest run of zeros, the first of those: where it begins, and how long it is. -/
def longestZeros : ℕ × ℕ :=
  (addr.segments.zipIdx.foldl
    (fun (longest, current) (segment, i) =>
      if segment = 0 then
        let current := if current.2 = 0 then (i, 1) else (current.1, current.2 + 1)
        (if longest.2 < current.2 then current else longest, current)
      else (longest, (0, 0)))
    (((0, 0) : ℕ × ℕ), ((0, 0) : ℕ × ℕ))).1

def groupsText (groups : List UInt16) : String :=
  ":".intercalate (groups.map fun g => String.ofList (Nat.toDigits 16 g.toNat))

/-- The text of an address of version 6. -/
def toText : String :=
  match addr.toIpv4Mapped with
  | some (a, b, c, d) => "::ffff:" ++ ipv4Text a b c d
  | none =>
      let (start, len) := addr.longestZeros
      if len > 1 then
        groupsText (addr.segments.take start) ++ "::" ++ groupsText (addr.segments.drop (start + len))
      else groupsText addr.segments

end Ipv6Addr

namespace IpAddr

def toText : IpAddr → String
  | .v4 a b c d => ipv4Text a b c d
  | .v6 addr => addr.toText

/-- Whether an address of four bytes is of the machine itself. -/
def isLoopbackV4 (a : UInt8) : Bool :=
  a == 127

/-- Whether an address is of the machine itself, also as one of version 6 that stands for one of
four bytes. -/
def isLoopback : IpAddr → Bool
  | .v4 a _ _ _ => isLoopbackV4 a
  | .v6 addr =>
      addr.segments == [0, 0, 0, 0, 0, 0, 0, 1] ||
        (addr.toIpv4Mapped.map fun octets => isLoopbackV4 octets.1).getD false

end IpAddr

end AegisDB
