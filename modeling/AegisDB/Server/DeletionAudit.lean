import AegisDB.Library.Bytes
import AegisDB.Library.HashChain
import AegisDB.Library.Table
import AegisDB.Library.Transition

/-!
# The audit log of deletions

Each entry has the hash of the entry before it.  A call reads the last hash, writes its own for the
next call and adds its entry under three locks, so calls that run at a time can take the same hash
for the last one, and can add their entries in another order.  The bytes of the fields are hashed one
behind the other, with nothing between them.
-/

namespace AegisDB

namespace Server

/-- Types of audit events. -/
inductive DeletionEventType where
  | requestReceived | deletionStarted | itemDeleted | secureErasePerformed | deletionCompleted
  | deletionFailed | certificateGenerated | exportRequestReceived | exportCompleted | exportFailed
deriving DecidableEq

/-- The name of an event type. -/
def DeletionEventType.debug : DeletionEventType → String
  | requestReceived => "RequestReceived"
  | deletionStarted => "DeletionStarted"
  | itemDeleted => "ItemDeleted"
  | secureErasePerformed => "SecureErasePerformed"
  | deletionCompleted => "DeletionCompleted"
  | deletionFailed => "DeletionFailed"
  | certificateGenerated => "CertificateGenerated"
  | exportRequestReceived => "ExportRequestReceived"
  | exportCompleted => "ExportCompleted"
  | exportFailed => "ExportFailed"

/-- What is recorded of an event. -/
structure DeletionEvent (δ : Type*) where
  id : String
  eventType : DeletionEventType
  subjectId : String
  timestamp : String
  actor : String
  details : δ
deriving DecidableEq

/-- Audit log entry for deletion operations. -/
structure DeletionAuditEntry (δ : Type*) extends DeletionEvent δ where
  prevHash : String
  hash : String
deriving DecidableEq

/-- The text of details, if there is one, and the hash of bytes in hexadecimal digits. -/
structure DeletionCodec (δ : Type*) where
  json : δ → Option String
  sha256Hex : Bytes → String

namespace DeletionCodec

variable {δ : Type*} (codec : DeletionCodec δ)

def hashed (event : DeletionEvent δ) (prevHash : String) : Bytes :=
  [event.id, event.eventType.debug, event.subjectId, event.timestamp, event.actor,
    (codec.json event.details).getD "", prevHash].flatMap fun text => text.toUTF8.toList

def computeHash (event : DeletionEvent δ) (prevHash : String) : String :=
  codec.sha256Hex (codec.hashed event prevHash)

def entry (event : DeletionEvent δ) (prevHash : String) : DeletionAuditEntry δ where
  toDeletionEvent := event
  prevHash := prevHash
  hash := codec.computeHash event prevHash

def chain : HashChain (DeletionAuditEntry δ) String where
  prev := DeletionAuditEntry.prevHash
  hash := DeletionAuditEntry.hash
  digest e := codec.computeHash e.toDeletionEvent e.prevHash

/-- Verify entries behind a hash, of which the first has an index. -/
def verifyFrom : ℕ → String → List (DeletionAuditEntry δ) → Except String ℕ
  | idx, _, [] => .ok idx
  | idx, lastHash, entry :: rest =>
      if entry.prevHash ≠ lastHash then
        .error ("Hash chain broken at entry " ++ toString idx ++ ": expected prev_hash '" ++
          lastHash ++ "', got '" ++ entry.prevHash ++ "'")
      else
        let computedHash := codec.computeHash entry.toDeletionEvent entry.prevHash
        if entry.hash ≠ computedHash then
          .error ("Hash mismatch at entry " ++ toString idx ++ ": computed '" ++ computedHash ++
            "', stored '" ++ entry.hash ++ "'")
        else verifyFrom (idx + 1) entry.hash rest

def verifyIntegrity (entries : List (DeletionAuditEntry δ)) : Except String ℕ :=
  codec.verifyFrom 0 "genesis" entries

/-! ## Verification -/

section Verification

variable {codec} {entries : List (DeletionAuditEntry δ)} {idx : ℕ} {lastHash : String}

/-- Verification succeeds just for entries that are chained. -/
theorem verifyFrom_eq_ok_iff {n : ℕ} :
    codec.verifyFrom idx lastHash entries = .ok n ↔
      codec.chain.Linked lastHash entries ∧ n = idx + entries.length := by
  induction entries generalizing idx lastHash with
  | nil => simp [verifyFrom, HashChain.Linked, eq_comm]
  | cons entry rest ih =>
    rw [verifyFrom, HashChain.Linked]
    by_cases hprev : entry.prevHash = lastHash
    · rw [if_neg (not_not_intro hprev)]
      dsimp only
      by_cases hhash : entry.hash = codec.computeHash entry.toDeletionEvent entry.prevHash
      · rw [if_neg (not_not_intro hhash), ih, List.length_cons]
        constructor
        · rintro ⟨hrest, hn⟩
          exact ⟨⟨hprev, hhash, hrest⟩, by omega⟩
        · rintro ⟨⟨-, -, hrest⟩, hn⟩
          exact ⟨hrest, by omega⟩
      · rw [if_pos hhash]
        exact iff_of_false (by simp) fun h => hhash h.1.2.1
    · rw [if_pos hprev]
      exact iff_of_false (by simp) fun h => hprev h.1.1

theorem verifyIntegrity_eq_ok_iff {n : ℕ} :
    codec.verifyIntegrity entries = .ok n ↔
      codec.chain.Linked "genesis" entries ∧ n = entries.length := by
  rw [verifyIntegrity, verifyFrom_eq_ok_iff, Nat.zero_add]

theorem verifyIntegrity_fails_iff :
    (∃ message, codec.verifyIntegrity entries = .error message) ↔
      ¬codec.chain.Linked "genesis" entries := by
  cases hverify : codec.verifyIntegrity entries with
  | error message =>
    have hfails : ¬codec.chain.Linked "genesis" entries := by
      intro hlinked
      rw [verifyIntegrity_eq_ok_iff.2 ⟨hlinked, rfl⟩] at hverify
      cases hverify
    simp [hfails]
  | ok n => simp [(verifyIntegrity_eq_ok_iff.1 hverify).1]

end Verification

/-- An exchanged entry is noticed: it has another hash before it, or a hash that is not its own, or
other bytes are hashed for it and there are entries behind it. -/
def Noticed (entries : List (DeletionAuditEntry δ)) (i : ℕ) (e e' : DeletionAuditEntry δ) : Prop :=
  e'.prevHash ≠ e.prevHash ∨
  e'.hash ≠ codec.computeHash e'.toDeletionEvent e'.prevHash ∨
  (i + 1 < entries.length ∧
    codec.hashed e'.toDeletionEvent e'.prevHash ≠ codec.hashed e.toDeletionEvent e.prevHash)

/-- An exchanged entry makes the verification fail just if it is noticed. -/
theorem fails_set_iff {codec : DeletionCodec δ} (hinj : Function.Injective codec.sha256Hex)
    {entries : List (DeletionAuditEntry δ)} (h : codec.chain.Linked "genesis" entries) {i : ℕ}
    {e e' : DeletionAuditEntry δ} (hi : entries[i]? = some e) :
    (∃ message, codec.verifyIntegrity (entries.set i e') = .error message) ↔
      codec.Noticed entries i e e' := by
  have hlt : i < entries.length := (List.getElem?_eq_some_iff.1 hi).1
  have hself : e.hash = codec.computeHash e.toDeletionEvent e.prevHash :=
    h.hash_eq (List.mem_of_getElem? hi)
  rw [verifyIntegrity_fails_iff, HashChain.linked_set h hi]
  change ¬(e'.prevHash = e.prevHash ∧
    e'.hash = codec.computeHash e'.toDeletionEvent e'.prevHash ∧
      (i + 1 = entries.length ∨ e'.hash = e.hash)) ↔ codec.Noticed entries i e e'
  rw [Noticed]
  by_cases hprev : e'.prevHash = e.prevHash
  · by_cases hown : e'.hash = codec.computeHash e'.toDeletionEvent e'.prevHash
    · have hsame : e'.hash = e.hash ↔ codec.hashed e'.toDeletionEvent e'.prevHash =
          codec.hashed e.toDeletionEvent e.prevHash := by
        rw [hown, hself, computeHash, computeHash, hinj.eq_iff]
      have hend : ¬i + 1 = entries.length ↔ i + 1 < entries.length := by omega
      simp only [hprev, hown, ne_eq, not_true_eq_false, true_and, false_or] at hsame ⊢
      rw [hsame, not_or, hend]
    · simp [hown]
  · simp [hprev]

end DeletionCodec

/-! ## Calls -/

/-- The log. -/
structure DeletionAuditLog (δ : Type*) where
  entries : List (DeletionAuditEntry δ)
  nextId : ℕ
  lastHash : String

def DeletionAuditLog.new {δ : Type*} : DeletionAuditLog δ where
  entries := []
  nextId := 1
  lastHash := "genesis"

/-- The id of a number, which has at least eight digits. -/
def deletionEventId (n : ℕ) : String :=
  "gdpr-" ++ "".pushn '0' (8 - (toString n).length) ++ toString n

/-- How far a call has come that has not written its hash. -/
inductive LogCall (δ : Type*) where
  | begun (event : DeletionEvent δ)
  | hasRead (event : DeletionEvent δ) (prevHash : String)
deriving DecidableEq

def LogCall.isReader {δ : Type*} : LogCall δ → Bool
  | .begun _ => false
  | .hasRead _ _ => true

/-- A log with the calls that are in progress. -/
structure DeletionLogRun (δ : Type*) where
  log : DeletionAuditLog δ
  calls : Table ℕ (LogCall δ)
  /-- The calls that have, in this order, and have still to add their entries. -/
  unpushed : List (ℕ × DeletionAuditEntry δ)
  returned : List String

/-- A step of a call. -/
inductive LogStep (δ : Type*) where
  | begin (caller : ℕ) (eventType : DeletionEventType) (subjectId actor timestamp : String)
      (details : δ)
  | readLastHash (caller : ℕ)
  | writeLastHash (caller : ℕ)
  | push (caller : ℕ)

namespace DeletionLogRun

variable {δ : Type*} (codec : DeletionCodec δ)

/-- A step of a call, if it is its next one. -/
def step (s : DeletionLogRun δ) : LogStep δ → Option (DeletionLogRun δ)
  | .begin caller eventType subjectId actor timestamp details =>
      if caller ∈ s.calls ∨ caller ∈ s.unpushed.map Prod.fst then none
      else
        let event : DeletionEvent δ :=
          { id := deletionEventId s.log.nextId
            eventType, subjectId, timestamp, actor, details }
        some { s with
          log := { s.log with nextId := s.log.nextId + 1 }
          calls := s.calls.insert caller (.begun event) }
  | .readLastHash caller =>
      match s.calls.lookup caller with
      | some (.begun event) =>
          some { s with calls := s.calls.insert caller (.hasRead event s.log.lastHash) }
      | _ => none
  | .writeLastHash caller =>
      match s.calls.lookup caller with
      | some (.hasRead event prevHash) =>
          let entry := codec.entry event prevHash
          some { s with
            log := { s.log with lastHash := entry.hash }
            calls := s.calls.erase caller
            unpushed := s.unpushed ++ [(caller, entry)] }
      | _ => none
  | .push caller =>
      match s.unpushed.find? fun c => c.1 = caller with
      | some (_, entry) =>
          some { s with
            log := { s.log with entries := s.log.entries ++ [entry] }
            unpushed := s.unpushed.eraseP fun c => c.1 = caller
            returned := s.returned ++ [entry.id] }
      | none => none

def system : System (DeletionLogRun δ) (LogStep δ) where
  init := ⟨.new, ∅, [], []⟩
  step := step codec

/-- A call reads the last hash while no other one is going to write one, and adds its entry before
the calls that have written after it. -/
def InTurn (s : DeletionLogRun δ) : LogStep δ → Prop
  | .readLastHash _ => ∀ call ∈ s.calls.values, call.isReader = false
  | .push caller => s.unpushed.head?.map Prod.fst = some caller
  | _ => True

instance (s : DeletionLogRun δ) (a : LogStep δ) : Decidable (InTurn s a) :=
  match a with
  | .readLastHash _ =>
      inferInstanceAs (Decidable (∀ call ∈ s.calls.values, call.isReader = false))
  | .push caller => inferInstanceAs (Decidable (s.unpushed.head?.map Prod.fst = some caller))
  | .begin .. | .writeLastHash _ => inferInstanceAs (Decidable True)

def Idle (s : DeletionLogRun δ) : Prop :=
  s.calls = ∅ ∧ s.unpushed = []

/-- What holds of the log as long as calls are in turn. -/
structure Invariant (s : DeletionLogRun δ) : Prop where
  /-- The entries are chained, and those behind them that have still to be added. -/
  linked : codec.chain.Linked "genesis" (s.log.entries ++ s.unpushed.map Prod.snd)
  lastHash : s.log.lastHash =
    codec.chain.tip "genesis" (s.log.entries ++ s.unpushed.map Prod.snd)
  /-- A call has read the hash that is still the last one. -/
  reader : ∀ caller event prevHash,
    s.calls.lookup caller = some (.hasRead event prevHash) → prevHash = s.log.lastHash
  oneReader : ∀ c c' call call', s.calls.lookup c = some call → s.calls.lookup c' = some call' →
    call.isReader = true → call'.isReader = true → c = c'
  returned : s.returned.length = s.log.entries.length

variable {codec} {s s' : DeletionLogRun δ}

theorem Invariant.init : (system codec).init.Invariant codec where
  linked := trivial
  lastHash := rfl
  reader _ _ _ h := by simp [system] at h
  oneReader _ _ _ _ h := by simp [system] at h
  returned := rfl

/-- A section of a call keeps the chain linked. -/
theorem Invariant.step {a : LogStep δ} (h : s.Invariant codec) (hturn : InTurn s a)
    (hstep : s.step codec a = some s') : s'.Invariant codec := by
  cases a with
  | begin caller eventType subjectId actor timestamp details =>
    obtain ⟨hnew, hs'⟩ := Option.ite_none_left_eq_some.1 hstep
    obtain rfl := Option.some.inj hs'
    refine ⟨h.linked, h.lastHash, fun c event prevHash hc => ?_, fun c c' call call' hc hc' hr hr' => ?_,
      h.returned⟩
    · rw [Table.lookup_insert] at hc
      split_ifs at hc
      · cases hc
      · exact h.reader c event prevHash hc
    · rw [Table.lookup_insert] at hc hc'
      split_ifs at hc hc' with h1 h2 h2
      · rw [h1, h2]
      · cases hc
        cases hr
      · cases hc'
        cases hr'
      · exact h.oneReader c c' call call' hc hc' hr hr'
  | readLastHash caller =>
    simp only [DeletionLogRun.step] at hstep
    split at hstep
    · obtain rfl := Option.some.inj hstep
      refine ⟨h.linked, h.lastHash, fun c event prevHash hc => ?_,
        fun c c' call call' hc hc' hr hr' => ?_, h.returned⟩
      · rw [Table.lookup_insert] at hc
        split_ifs at hc
        · cases hc
          rfl
        · exact h.reader c event prevHash hc
      · -- the calls before this one have not read
        rw [Table.lookup_insert] at hc hc'
        split_ifs at hc hc' with h1 h2 h2
        · rw [h1, h2]
        · rw [hturn call' (Table.mem_values.2 ⟨c', hc'⟩)] at hr'
          cases hr'
        · rw [hturn call (Table.mem_values.2 ⟨c, hc⟩)] at hr
          cases hr
        · exact h.oneReader c c' call call' hc hc' hr hr'
    · cases hstep
  | writeLastHash caller =>
    simp only [DeletionLogRun.step] at hstep
    split at hstep
    · rename_i event prevHash hcall
      obtain rfl := Option.some.inj hstep
      have hprev : prevHash = s.log.lastHash := h.reader caller event prevHash hcall
      refine ⟨?_, ?_, fun c event' prevHash' hc => ?_, fun c c' call call' hc hc' hr hr' => ?_,
        h.returned⟩
      · rw [List.map_append, ← List.append_assoc]
        exact HashChain.linked_concat h.linked (hprev.trans h.lastHash) rfl
      · rw [List.map_append, ← List.append_assoc, List.map_singleton, HashChain.tip_concat]
        rfl
      · -- the other readers are this one
        rw [Table.lookup_erase] at hc
        split_ifs at hc with hne
        exact absurd (h.oneReader c caller _ _ hc hcall rfl rfl) hne
      · rw [Table.lookup_erase] at hc hc'
        split_ifs at hc hc'
        exact h.oneReader c c' call call' hc hc' hr hr'
    · cases hstep
  | push caller =>
    simp only [DeletionLogRun.step] at hstep
    have hhead : s.unpushed.head?.map Prod.fst = some caller := hturn
    cases hun : s.unpushed with
    | nil => simp [hun] at hhead
    | cons first rest =>
      rw [hun, List.head?_cons, Option.map_some, Option.some.injEq] at hhead
      rw [hun, List.find?_cons_of_pos (by simp [hhead]), List.eraseP_cons_of_pos (by simp [hhead])]
        at hstep
      obtain rfl := Option.some.inj hstep
      have hsame : s.log.entries ++ s.unpushed.map Prod.snd =
          (s.log.entries ++ [first.2]) ++ rest.map Prod.snd := by
        rw [hun, List.map_cons, List.append_assoc, List.singleton_append]
      refine ⟨?_, ?_, h.reader, h.oneReader, ?_⟩
      · rw [← hsame]
        exact h.linked
      · rw [← hsame]
        exact h.lastHash
      · rw [List.length_append, List.length_append, h.returned]
        rfl

theorem invariant_of_inTurn (h : (system codec).Reach InTurn s) : s.Invariant codec :=
  h.invariant .init fun _ _ _ _ ih hturn hstep => ih.step hturn hstep

/-- When calls in turn have all returned, the verification succeeds with their number, and it fails
after the exchange of any entry just if the exchange is noticed. -/
theorem verifies_of_inTurn (hinj : Function.Injective codec.sha256Hex)
    (h : (system codec).Reach InTurn s) (hidle : s.Idle) :
    codec.verifyIntegrity s.log.entries = .ok s.returned.length ∧
      ∀ i e e', s.log.entries[i]? = some e →
        ((∃ message, codec.verifyIntegrity (s.log.entries.set i e') = .error message) ↔
          codec.Noticed s.log.entries i e e') := by
  have hinv := invariant_of_inTurn h
  have hlinked := hinv.linked
  rw [hidle.2, List.map_nil, List.append_nil] at hlinked
  refine ⟨?_, fun i e e' hi => DeletionCodec.fails_set_iff hinj hlinked hi⟩
  exact DeletionCodec.verifyIntegrity_eq_ok_iff.2 ⟨hlinked, hinv.returned⟩

/-! ## Two calls -/

/-- The bytes of two events, the second one behind the first or at the beginning, and their
hashes. -/
def recordedHashes : List (Bytes × String) :=
  [(["gdpr-00000001", "RequestReceived", "user-1", "2025-01-01T00:00:00+00:00", "admin", "null",
      "genesis"].flatMap fun text => text.toUTF8.toList,
    "333df8bbbc819cd17c7fcd0f580112bb1fc7d2eee28105fe20366c2aa99c7aab"),
   (["gdpr-00000002", "DeletionStarted", "user-1", "2025-01-01T00:00:00+00:00", "admin", "null",
      "333df8bbbc819cd17c7fcd0f580112bb1fc7d2eee28105fe20366c2aa99c7aab"].flatMap
        fun text => text.toUTF8.toList,
    "2387919a4f020d5f15624fd5df2e14fb247124f14dc321445fc0858b33e459e1"),
   (["gdpr-00000002", "DeletionStarted", "user-1", "2025-01-01T00:00:00+00:00", "admin", "null",
      "genesis"].flatMap fun text => text.toUTF8.toList,
    "c02eb4fe89b91f80e63eb08737675b69a6dc0e7d50064f44537b5c5e26ab0341")]

/-- The hashes that are recorded, and other texts for other bytes. -/
def recordedHash (bytes : Bytes) : String :=
  match recordedHashes.find? fun r => r.1 = bytes with
  | some r => r.2
  | none => String.ofList ('#' :: bytes.map Char.ofUInt8)

theorem recordedHash_injective : Function.Injective recordedHash := by
  have hdistinct : ∀ r ∈ recordedHashes, ∀ r' ∈ recordedHashes, r.2 = r'.2 → r.1 = r'.1 := by
    decide +kernel
  have hdigit : recordedHashes.all (fun r => decide (r.2.toList.head? ≠ some '#')) = true := by
    decide +kernel
  have hother : ∀ r ∈ recordedHashes, ∀ text : List Char, r.2 ≠ String.ofList ('#' :: text) := by
    intro r hr text heq
    have hhead := List.all_eq_true.1 hdigit r hr
    rw [heq, String.toList_ofList] at hhead
    simp at hhead
  intro a b hab
  unfold recordedHash at hab
  cases ha : recordedHashes.find? fun r => r.1 = a with
  | some r =>
    obtain rfl : r.1 = a := by simpa using List.find?_some ha
    cases hb : recordedHashes.find? fun r' => r'.1 = b with
    | some r' =>
      obtain rfl : r'.1 = b := by simpa using List.find?_some hb
      rw [ha, hb] at hab
      exact hdistinct r (List.mem_of_find?_eq_some ha) r' (List.mem_of_find?_eq_some hb) hab
    | none =>
      rw [ha, hb] at hab
      exact absurd hab (hother r (List.mem_of_find?_eq_some ha) _)
  | none =>
    cases hb : recordedHashes.find? fun r' => r'.1 = b with
    | some r' =>
      rw [ha, hb] at hab
      exact absurd hab.symm (hother r' (List.mem_of_find?_eq_some hb) _)
    | none =>
      rw [ha, hb] at hab
      have htexts := List.cons.inj (String.ofList_injective hab)
      refine List.map_injective_iff.2 (fun x y hxy => ?_) htexts.2
      exact UInt8.toUInt32_inj.1 (congrArg Char.val hxy)

def nullCodec : DeletionCodec Unit where
  json _ := some "null"
  sha256Hex := recordedHash

def twoCalls : List (LogStep Unit) :=
  [.begin 0 .requestReceived "user-1" "admin" "2025-01-01T00:00:00+00:00" (),
    .begin 1 .deletionStarted "user-1" "admin" "2025-01-01T00:00:00+00:00" ()]

/-- The second call reads the last hash when the first one has written its own. -/
theorem verifies_of_inTurn_twoCalls :
    ∃ s, (system nullCodec).run InTurn (twoCalls ++
        [.readLastHash 0, .writeLastHash 0, .readLastHash 1, .push 0, .writeLastHash 1, .push 1]) =
          some s ∧
      nullCodec.verifyIntegrity s.log.entries = .ok s.returned.length := by
  have hrun : ((system nullCodec).run InTurn (twoCalls ++
      [.readLastHash 0, .writeLastHash 0, .readLastHash 1, .push 0, .writeLastHash 1,
        .push 1])).isSome = true := by decide +kernel
  obtain ⟨s, hs⟩ := Option.isSome_iff_exists.1 hrun
  have hend : (((system nullCodec).run InTurn (twoCalls ++
      [.readLastHash 0, .writeLastHash 0, .readLastHash 1, .push 0, .writeLastHash 1,
        .push 1])).all fun s => decide (s.calls = ∅ ∧ s.unpushed = [])) = true := by decide +kernel
  rw [hs, Option.all_some, decide_eq_true_eq] at hend
  exact ⟨s, hs, (verifies_of_inTurn recordedHash_injective (System.reach_of_run hs) hend).1⟩

/-- Both calls read the last hash before they write, and the verification fails. -/
theorem not_verifies :
    ¬∀ s, (system nullCodec).Reachable s → s.Idle →
      nullCodec.verifyIntegrity s.log.entries = .ok s.returned.length := by
  intro h
  have hrun : ((system nullCodec).run (fun _ _ => True) (twoCalls ++
      [.readLastHash 0, .readLastHash 1, .writeLastHash 0, .writeLastHash 1, .push 0,
        .push 1])).isSome = true := by decide +kernel
  obtain ⟨s, hs⟩ := Option.isSome_iff_exists.1 hrun
  have hend : (((system nullCodec).run (fun _ _ => True) (twoCalls ++
      [.readLastHash 0, .readLastHash 1, .writeLastHash 0, .writeLastHash 1, .push 0,
        .push 1])).all fun s => decide ((s.calls = ∅ ∧ s.unpushed = []) ∧
          (nullCodec.verifyIntegrity s.log.entries).toOption = none)) = true := by decide +kernel
  rw [hs, Option.all_some, decide_eq_true_eq] at hend
  have hok := h s (System.reach_of_run hs) hend.1
  rw [hok] at hend
  cases hend.2

end DeletionLogRun

end Server

end AegisDB
