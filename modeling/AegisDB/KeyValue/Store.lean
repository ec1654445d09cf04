import AegisDB.Library.Table

/-!
# The key-value store

Values under keys, each with a time to live in seconds from its last write on.  An entry whose time
has run out is treated as absent, and removed when it is asked for.  Whether the time has run out is
computed with durations and dates that are bounded, and what is beyond the bounds panics; here a
panic is `none`.
-/

namespace AegisDB.KeyValue

/-- The durations and dates that there are; a date is a number of nanoseconds. -/
structure Calendar where
  /-- The most seconds that a duration can have, in either direction. -/
  maxSeconds : ℕ
  minUtc : ℤ
  maxUtc : ℤ
  maxSeconds_lt : maxSeconds < 2 ^ 63

namespace Calendar

variable (calendar : Calendar)

def seconds (seconds : ℤ) : Option ℤ :=
  if -calendar.maxSeconds ≤ seconds ∧ seconds ≤ calendar.maxSeconds then
    some (seconds * 1000000000)
  else none

def add (date duration : ℤ) : Option ℤ :=
  if calendar.minUtc ≤ date + duration ∧ date + duration ≤ calendar.maxUtc then
    some (date + duration)
  else none

end Calendar

/-- Key-value entry with metadata. -/
structure KvEntry (ψ : Type) where
  key : String
  value : ψ
  ttl : Option UInt64
  createdAt : ℤ
  updatedAt : ℤ
deriving DecidableEq

/-- In-memory key-value store. -/
structure KvStore (ψ : Type) where
  data : Table String (KvEntry ψ) := ∅

section Operations

variable {ψ : Type} (calendar : Calendar) (now : ℤ)

/-- Whether the time to live of an entry has elapsed; entries without one never expire. -/
def KvEntry.isExpiredAt (self : KvEntry ψ) : Option Bool :=
  match self.ttl with
  | some secs => do
    let duration ← calendar.seconds secs.toInt64.toInt
    let deadline ← calendar.add self.updatedAt duration
    return decide (deadline < now)
  | none => some false

def hasPrefix (pre : Option String) (key : String) : Bool :=
  pre.all fun p => decide (p.toList <+: key.toList)

namespace KvStore

variable (self : KvStore ψ)

/-- Set a key-value pair. -/
def set (key : String) (value : ψ) (ttl : Option UInt64) : KvEntry ψ × KvStore ψ :=
  let entry : KvEntry ψ :=
    match self.data.lookup key with
    | some existing => { key, value, ttl, createdAt := existing.createdAt, updatedAt := now }
    | none => { key, value, ttl, createdAt := now, updatedAt := now }
  (entry, { data := self.data.insert key entry })

/-- Remove an entry if it has expired. -/
def evict (key : String) : Option (KvStore ψ) :=
  match self.data.lookup key with
  | some entry => do
    if ← entry.isExpiredAt calendar now then return { data := self.data.erase key }
    else return self
  | none => some self

/-- Get a value by key. -/
def get (key : String) : Option (Option (KvEntry ψ) × KvStore ψ) :=
  match self.data.lookup key with
  | some entry => do
    if ← entry.isExpiredAt calendar now then
      let store ← self.evict calendar now key
      return (none, store)
    else return (some entry, self)
  | none => some (none, self)

def delete (key : String) : Option (KvEntry ψ) × KvStore ψ :=
  (self.data.lookup key, { data := self.data.erase key })

/-- List entries, in the order in which they are gone through. -/
def list (pre : Option String) : ℕ → List (KvEntry ψ) → Option (List (KvEntry ψ))
  | 0, _ => some []
  | _, [] => some []
  | limit + 1, entry :: values => do
    if ← entry.isExpiredAt calendar now then list pre (limit + 1) values
    else if hasPrefix pre entry.key then
      let rest ← list pre limit values
      return entry :: rest
    else list pre (limit + 1) values

/-- The number of entries that have not expired. -/
def count : List (KvEntry ψ) → Option ℕ
  | [] => some 0
  | entry :: values => do
    let expired ← entry.isExpiredAt calendar now
    let rest ← count values
    return if expired then rest else rest + 1

end KvStore

end Operations

end AegisDB.KeyValue
