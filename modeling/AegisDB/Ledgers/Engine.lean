import AegisDB.Library.HashChain
import AegisDB.Library.Hex
import AegisDB.Library.Table

/-!
# The ledger engine

Named ledgers of entries that are chained by hashes: each entry has its number, the hash of the
entry before it, and a hash of all that it says.  Ledgers of an old version are hashed with FNV-1a,
new ones with SHA-256.  Verification goes along the chain and ends at the first entry that does not
follow from the one before it.  A snapshot is a value; its JSON text is not modelled.
-/

namespace AegisDB.Ledgers

/-! ## Hashes -/

/-- The `prevHash` of the first entry of a ledger with SHA-256. -/
def genesisHashV2 : String :=
  String.ofList (List.replicate 64 '0')

/-- The `prevHash` of the first entry of a ledger with FNV-1a. -/
def genesisHashV1 : String :=
  String.ofList (List.replicate 32 '0')

def hashVersionFnv1a : UInt8 := 1

/-- The hash version of new ledgers, with SHA-256. -/
def hashVersionSha256 : UInt8 := 2

/-- The genesis hash of a ledger with a hash version. -/
def genesisHash (version : UInt8) : String :=
  if version = hashVersionFnv1a then genesisHashV1 else genesisHashV2

/-- How payloads are written, and the hash of bytes. -/
structure LedgerCodec (ψ : Type) where
  toVec : ψ → Bytes
  toVec_injective : Function.Injective toVec
  sha256 : Bytes → Bytes
  length_sha256 : ∀ bytes, (sha256 bytes).length = 32

def mix (bytes : Bytes) (h : UInt64) : UInt64 :=
  bytes.foldl (fun h b => (h ^^^ b.toUInt64) * 0x100000001b3) h

section Hashes

variable {ψ : Type} (codec : LedgerCodec ψ)

/-- The chain hash of version 1, with two lanes of FNV-1a. -/
def chainHashFnv1a (prevHash : String) (seq timestamp : UInt64) (payload : ψ) : String :=
  let feed (h : UInt64) : UInt64 :=
    mix (codec.toVec payload) (mix (le 8 timestamp.toNat)
      (mix (le 8 seq.toNat) (mix (bytesOf prevHash) h)))
  String.ofList (hexChars 16 (feed 0xcbf29ce484222325).toNat ++
    hexChars 16 (feed 0x84222325cbf29ce4).toNat)

/-- The chain hash of an entry: SHA-256 of the hash before it, its number, its time and its
payload. -/
def chainHash (prevHash : String) (seq timestamp : UInt64) (payload : ψ) : String :=
  let digest := codec.sha256
    (bytesOf prevHash ++ (le 8 seq.toNat ++ (le 8 timestamp.toNat ++ codec.toVec payload)))
  String.ofList (digest.flatMap fun b => hexChars 2 b.toNat)

/-- The chain hash of an entry under a hash version. -/
def chainHashVersioned (version : UInt8) (prevHash : String) (seq timestamp : UInt64)
    (payload : ψ) : String :=
  if version = hashVersionFnv1a then chainHashFnv1a codec prevHash seq timestamp payload
  else chainHash codec prevHash seq timestamp payload

end Hashes

/-! ## Ledgers -/

/-- One immutable ledger entry. -/
structure LedgerEntry (ψ : Type) where
  seq : UInt64
  timestamp : UInt64
  payload : ψ
  prevHash : String
  hash : String
deriving DecidableEq

/-- The result of verifying the hash chain of a ledger. -/
structure VerifyResult where
  valid : Bool
  entries : ℕ
  /-- The number of the first entry whose hash or link is invalid, if any. -/
  brokenAt : Option UInt64
deriving DecidableEq

/-- Errors returned by the ledger engine. -/
inductive LedgerError where
  | ledgerNotFound (name : String)
  | ledgerExists (name : String)
deriving DecidableEq

/-- A single append-only ledger, with no more entries than a vector can have. -/
structure Ledger (ψ : Type) where
  entries : List (LedgerEntry ψ)
  hashVersion : UInt8
  length_lt : entries.length < 2 ^ 63

namespace Ledger

variable {ψ : Type}

def default : Ledger ψ where
  entries := []
  hashVersion := hashVersionSha256
  length_lt := Nat.two_pow_pos 63

def tip (self : Ledger ψ) : String :=
  (self.entries.getLast?.map LedgerEntry.hash).getD (genesisHash self.hashVersion)

/-- Put an entry behind the others; there is no ledger if the vector cannot have one more. -/
def push (self : Ledger ψ) (entry : LedgerEntry ψ) : Option (Ledger ψ) :=
  if h : self.entries.length + 1 < 2 ^ 63 then
    some
      { self with
        entries := self.entries ++ [entry]
        length_lt := by rw [List.length_append]; exact h }
  else none

end Ledger

/-! ## The engine -/

/-- Multi-ledger append-only store. -/
structure LedgerEngine (ψ : Type) where
  ledgers : Table String (Ledger ψ) := ∅
  /-- Logical clock for appends that do not supply a timestamp. -/
  clock : UInt64 := 1

/-- A copy of everything. -/
structure EngineSnapshot (ψ : Type) where
  ledgers : Table String (Ledger ψ) := ∅
  clock : UInt64 := 0

namespace LedgerEngine

variable {ψ : Type} (codec : LedgerCodec ψ) (self : LedgerEngine ψ)

def createLedger (name : String) : Except LedgerError (LedgerEngine ψ) :=
  if name ∈ self.ledgers then .error (.ledgerExists name)
  else .ok { self with ledgers := self.ledgers.insert name .default }

def dropLedger (name : String) : Except LedgerError (LedgerEngine ψ) :=
  if name ∈ self.ledgers then .ok { self with ledgers := self.ledgers.erase name }
  else .error (.ledgerNotFound name)

/-- The entry that an append makes. -/
def nextEntry (ledger : Ledger ψ) (payload : ψ) (timestamp : UInt64) : LedgerEntry ψ :=
  let seq := UInt64.ofNat ledger.entries.length
  { seq, timestamp, payload
    prevHash := ledger.tip
    hash := chainHashVersioned codec ledger.hashVersion ledger.tip seq timestamp payload }

/-- Append a payload to the ledger, which may be new; the hash of the entry chains off the current
tip. There is no result if the vector is full. -/
def append (name : String) (payload : ψ) (timestamp : Option UInt64) :
    Option (LedgerEntry ψ × LedgerEngine ψ) :=
  let ts := timestamp.getD self.clock
  let clock := if timestamp.isSome then self.clock else self.clock + 1
  let ledger := (self.ledgers.lookup name).getD .default
  let entry := nextEntry codec ledger payload ts
  (ledger.push entry).map fun ledger =>
    (entry, { ledgers := self.ledgers.insert name ledger, clock })

def snapshot : EngineSnapshot ψ where
  ledgers := self.ledgers
  clock := self.clock

end LedgerEngine

def LedgerEngine.loadSnapshot {ψ : Type} (_self : LedgerEngine ψ) (snap : EngineSnapshot ψ) :
    LedgerEngine ψ where
  ledgers := snap.ledgers
  clock := max snap.clock 1

section Verify

variable {ψ : Type} [DecidableEq ψ] (codec : LedgerCodec ψ)

/-- The number of the first entry that does not follow from the one before it. -/
def firstBroken (version : UInt8) : String → ℕ → List (LedgerEntry ψ) → Option UInt64
  | _, _, [] => none
  | prev, i, e :: es =>
    let expected := chainHashVersioned codec version e.prevHash e.seq e.timestamp e.payload
    if e.seq = UInt64.ofNat i ∧ e.prevHash = prev ∧ e.hash = expected then
      firstBroken version e.hash (i + 1) es
    else some (UInt64.ofNat i)

/-- Verify the hash chain of a ledger end to end. -/
def Ledger.verify (self : Ledger ψ) : VerifyResult :=
  match firstBroken codec self.hashVersion (genesisHash self.hashVersion) 0 self.entries with
  | some i => { valid := false, entries := self.entries.length, brokenAt := some i }
  | none => { valid := true, entries := self.entries.length, brokenAt := none }

/-- Verify a ledger. -/
def LedgerEngine.verify (self : LedgerEngine ψ) (name : String) :
    Except LedgerError VerifyResult :=
  match self.ledgers.lookup name with
  | none => .error (.ledgerNotFound name)
  | some ledger => .ok (ledger.verify codec)

end Verify

end AegisDB.Ledgers
