import AegisDB.Ledgers.Engine
import AegisDB.Library.Transition

/-!
# Tamper evidence

A ledger that was only appended to verifies, with each entry at its number.  In a ledger that is
exchanged for another, verification does not go beyond an entry behind the first difference whose
hash was not computed anew: under a hash without collisions, such an entry pins down all that is
before it.  The first different entry itself may pass, if its own hash was computed anew, and then
it is the entry behind it that does not follow.
-/

namespace AegisDB.Ledgers

variable {ψ : Type}

/-! ## What is hashed -/

section Bytes

variable (codec : LedgerCodec ψ)

def LedgerEntry.bytes (e : LedgerEntry ψ) : Bytes :=
  bytesOf e.prevHash ++ (le 8 e.seq.toNat ++ (le 8 e.timestamp.toNat ++ codec.toVec e.payload))

/-- The hash of bytes under a hash version. -/
def LedgerCodec.digestOf (version : UInt8) (bytes : Bytes) : String :=
  if version = hashVersionFnv1a then
    String.ofList (hexChars 16 (mix bytes 0xcbf29ce484222325).toNat ++
      hexChars 16 (mix bytes 0x84222325cbf29ce4).toNat)
  else String.ofList ((codec.sha256 bytes).flatMap fun b => hexChars 2 b.toNat)

variable {codec}

theorem mix_append (front back : Bytes) (h : UInt64) :
    mix (front ++ back) h = mix back (mix front h) :=
  List.foldl_append

theorem chainHashVersioned_eq (version : UInt8) (e : LedgerEntry ψ) :
    chainHashVersioned codec version e.prevHash e.seq e.timestamp e.payload =
      codec.digestOf version (e.bytes codec) := by
  rw [chainHashVersioned, LedgerCodec.digestOf, chainHashFnv1a, chainHash, LedgerEntry.bytes]
  simp only [mix_append]

theorem length_bytesOf_fnv1a (bytes : Bytes) :
    (bytesOf (String.ofList (hexChars 16 (mix bytes 0xcbf29ce484222325).toNat ++
      hexChars 16 (mix bytes 0x84222325cbf29ce4).toNat))).length = 32 := by
  rw [length_bytesOf_ofList, List.length_append, length_hexChars, length_hexChars]
  intro c hc
  rcases List.mem_append.mp hc with hc | hc
  · exact val_le_of_mem_hexChars hc
  · exact val_le_of_mem_hexChars hc

theorem length_bytesOf_sha256 (bytes : Bytes) :
    (bytesOf (String.ofList ((codec.sha256 bytes).flatMap fun b => hexChars 2 b.toNat))).length =
      64 := by
  rw [length_bytesOf_ofList]
  · simp only [List.length_flatMap, length_hexChars, List.map_const', List.sum_replicate,
      codec.length_sha256, smul_eq_mul]
  · intro c hc
    obtain ⟨b, -, hc⟩ := List.mem_flatMap.mp hc
    exact val_le_of_mem_hexChars hc

theorem length_bytesOf_zeros (n : ℕ) :
    (bytesOf (String.ofList (List.replicate n '0'))).length = n := by
  rw [length_bytesOf_ofList, List.length_replicate]
  intro c hc
  rw [List.eq_of_mem_replicate hc]
  decide

theorem length_bytesOf_digestOf (version : UInt8) (bytes : Bytes) :
    (bytesOf (codec.digestOf version bytes)).length = (bytesOf (genesisHash version)).length := by
  by_cases hversion : version = hashVersionFnv1a
  · rw [LedgerCodec.digestOf, genesisHash, if_pos hversion, if_pos hversion, length_bytesOf_fnv1a]
    exact (length_bytesOf_zeros 32).symm
  · rw [LedgerCodec.digestOf, genesisHash, if_neg hversion, if_neg hversion, length_bytesOf_sha256]
    exact (length_bytesOf_zeros 64).symm

theorem le_injective {m n : UInt64} (h : le 8 m.toNat = le 8 n.toNat) : m = n := by
  have hofLe := congrArg ofLe h
  have hpow : 256 ^ 8 = 2 ^ 64 := by norm_num
  rw [ofLe_le, ofLe_le, hpow, Nat.mod_eq_of_lt m.toNat_lt, Nat.mod_eq_of_lt n.toNat_lt] at hofLe
  exact UInt64.toNat_inj.mp hofLe

/-- Entries with the same hash and the same bytes are the same, if the hashes before them are
equally long. -/
theorem LedgerEntry.eq_of_bytes_eq {e f : LedgerEntry ψ}
    (hlength : (bytesOf e.prevHash).length = (bytesOf f.prevHash).length)
    (hbytes : e.bytes codec = f.bytes codec) (hhash : e.hash = f.hash) : e = f := by
  obtain ⟨hprev, hrest⟩ := List.append_inj hbytes hlength
  obtain ⟨hseq, hrest⟩ := List.append_inj hrest (by rw [length_le, length_le])
  obtain ⟨htime, hpayload⟩ := List.append_inj hrest (by rw [length_le, length_le])
  have hprev' : e.prevHash = f.prevHash := by
    have htext := congrArg textOf hprev
    rw [textOf_bytesOf, textOf_bytesOf] at htext
    exact Option.some.inj htext
  cases e
  cases f
  cases hprev'
  cases le_injective hseq
  cases le_injective htime
  cases codec.toVec_injective hpayload
  cases hhash
  rfl

end Bytes

/-! ## Intact chains -/

section Intact

variable (codec : LedgerCodec ψ)

def chain (version : UInt8) : HashChain (LedgerEntry ψ) String where
  prev := LedgerEntry.prevHash
  hash := LedgerEntry.hash
  digest e := codec.digestOf version (e.bytes codec)

/-- The entries are chained from a hash on and numbered from a number on. -/
structure IntactFrom (version : UInt8) (prev : String) (i : ℕ) (entries : List (LedgerEntry ψ)) :
    Prop where
  linked : (chain codec version).Linked prev entries
  numbered : ∀ j e, entries[j]? = some e → e.seq = UInt64.ofNat (i + j)

/-- The entries of a ledger that nobody has changed. -/
def Intact (version : UInt8) (entries : List (LedgerEntry ψ)) : Prop :=
  IntactFrom codec version (genesisHash version) 0 entries

variable {codec} {version : UInt8} {prev : String} {i : ℕ} {e : LedgerEntry ψ}
  {entries : List (LedgerEntry ψ)}

theorem IntactFrom.take (h : IntactFrom codec version prev i entries) (n : ℕ) :
    IntactFrom codec version prev i (entries.take n) where
  linked := h.linked.take n
  numbered j e hj := by
    rw [List.getElem?_take] at hj
    split_ifs at hj
    exact h.numbered j e hj

theorem intactFrom_nil : IntactFrom codec version prev i [] :=
  ⟨trivial, fun _ _ h => nomatch h⟩

theorem intactFrom_cons_iff : IntactFrom codec version prev i (e :: entries) ↔
    (e.seq = UInt64.ofNat i ∧ e.prevHash = prev ∧
      e.hash = chainHashVersioned codec version e.prevHash e.seq e.timestamp e.payload) ∧
    IntactFrom codec version e.hash (i + 1) entries := by
  rw [chainHashVersioned_eq]
  constructor
  · rintro ⟨⟨hprev, hhash, hlinked⟩, hnumbered⟩
    refine ⟨⟨hnumbered 0 e rfl, hprev, hhash⟩, hlinked, fun j e' hj => ?_⟩
    rw [hnumbered (j + 1) e' hj, Nat.add_right_comm, Nat.add_assoc]
  · rintro ⟨⟨hseq, hprev, hhash⟩, hlinked, hnumbered⟩
    refine ⟨⟨hprev, hhash, hlinked⟩, fun j e' hj => ?_⟩
    cases j with
    | zero =>
      obtain rfl := Option.some.inj hj
      exact hseq
    | succ j =>
      rw [hnumbered j e' hj, Nat.add_right_comm, Nat.add_assoc]

theorem firstBroken_cases [DecidableEq ψ] (version : UInt8) (prev : String) (i : ℕ)
    (entries : List (LedgerEntry ψ)) :
    (firstBroken codec version prev i entries = none ∧ IntactFrom codec version prev i entries) ∨
    ∃ b < entries.length, firstBroken codec version prev i entries = some (UInt64.ofNat (i + b)) ∧
      IntactFrom codec version prev i (entries.take b) ∧
      ¬ IntactFrom codec version prev i (entries.take (b + 1)) := by
  induction entries generalizing prev i with
  | nil => exact Or.inl ⟨rfl, intactFrom_nil⟩
  | cons e entries ih =>
    rw [firstBroken]
    by_cases hok : e.seq = UInt64.ofNat i ∧ e.prevHash = prev ∧
        e.hash = chainHashVersioned codec version e.prevHash e.seq e.timestamp e.payload
    · rw [if_pos hok]
      rcases ih e.hash (i + 1) with ⟨hnone, hintact⟩ | ⟨b, hb, hsome, hfront, hbroken⟩
      · exact Or.inl ⟨hnone, intactFrom_cons_iff.mpr ⟨hok, hintact⟩⟩
      · refine Or.inr ⟨b + 1, Nat.succ_lt_succ hb, ?_, ?_, ?_⟩
        · rw [hsome, Nat.add_right_comm, Nat.add_assoc]
        · rw [List.take_succ_cons]
          exact intactFrom_cons_iff.mpr ⟨hok, hfront⟩
        · rw [List.take_succ_cons]
          exact fun h => hbroken (intactFrom_cons_iff.mp h).2
    · rw [if_neg hok]
      refine Or.inr ⟨0, Nat.succ_pos _, rfl, ?_, fun h => ?_⟩
      · rw [List.take_zero]
        exact intactFrom_nil
      · rw [List.take_succ_cons] at h
        exact hok (intactFrom_cons_iff.mp h).1

end Intact

/-! ## Exchanged ledgers -/

section Exchanged

variable (codec : LedgerCodec ψ) (version : UInt8)

/-- Of what is hashed for some entries, no two byte strings have the same hash. -/
def CollisionFree (entries : List (LedgerEntry ψ)) : Prop :=
  ∀ e ∈ entries, ∀ f ∈ entries,
    codec.digestOf version (e.bytes codec) = codec.digestOf version (f.bytes codec) →
      e.bytes codec = f.bytes codec

/-- The hash of an entry was computed anew: it is the hash of what the entry says, and not one that
was there before. -/
def Recomputed (honest : List (LedgerEntry ψ)) (e : LedgerEntry ψ) : Prop :=
  e.hash = chainHashVersioned codec version e.prevHash e.seq e.timestamp e.payload ∧
    ∀ f ∈ honest, f.hash ≠ e.hash

variable {codec version} {honest stored : List (LedgerEntry ψ)} {e f : LedgerEntry ψ}

theorem Intact.length_prevHash (h : Intact codec version stored) (he : e ∈ stored) :
    (bytesOf e.prevHash).length = (bytesOf (genesisHash version)).length := by
  have hprev : e.prevHash = genesisHash version ∨
      ∃ e₀ ∈ stored, e.prevHash = codec.digestOf version (e₀.bytes codec) :=
    h.linked.prev_eq_digest he
  rcases hprev with hprev | ⟨e₀, -, hprev⟩
  · rw [hprev]
  · rw [hprev, length_bytesOf_digestOf]

theorem eq_of_hash_eq (hhonest : Intact codec version honest)
    (hstored : Intact codec version stored)
    (hfree : CollisionFree codec version (honest ++ stored)) (he : e ∈ stored) (hf : f ∈ honest)
    (heq : e.hash = f.hash) : e = f := by
  have hdigest : e.hash = codec.digestOf version (e.bytes codec) := hstored.linked.hash_eq he
  have hdigest' : f.hash = codec.digestOf version (f.bytes codec) := hhonest.linked.hash_eq hf
  have hbytes : e.bytes codec = f.bytes codec := by
    refine hfree e (List.mem_append_right _ he) f (List.mem_append_left _ hf) ?_
    rw [← hdigest, ← hdigest', heq]
  refine LedgerEntry.eq_of_bytes_eq ?_ hbytes heq
  rw [hstored.length_prevHash he, hhonest.length_prevHash hf]

theorem CollisionFree.mono {entries : List (LedgerEntry ψ)}
    (hfree : CollisionFree codec version honest) (h : ∀ e ∈ entries, e ∈ honest) : CollisionFree codec version entries :=
  fun e he f hf => hfree e (h e he) f (h f hf)

/-- Up to an entry with a hash that was there before, an intact chain is the one that was there
before. -/
theorem take_eq_of_not_recomputed (hhonest : Intact codec version honest)
    (hlength : honest.length < 2 ^ 63) (hlength' : stored.length < 2 ^ 63)
    (hfree : CollisionFree codec version (honest ++ stored)) {k : ℕ} (hk : stored[k]? = some e)
    (hold : ¬ Recomputed codec version honest e)
    (hstored : Intact codec version (stored.take (k + 1))) :
    stored.take (k + 1) = honest.take (k + 1) := by
  have hk' : (stored.take (k + 1))[k]? = some e := by
    rw [List.getElem?_take, if_pos (Nat.lt_succ_self k), hk]
  have he : e ∈ stored.take (k + 1) := List.mem_of_getElem? hk'
  have hhash : e.hash = codec.digestOf version (e.bytes codec) := hstored.linked.hash_eq he
  have hfree' : CollisionFree codec version (honest ++ stored.take (k + 1)) :=
    hfree.mono fun f hf => (List.mem_append.mp hf).elim (List.mem_append_left _)
      fun hf => List.mem_append_right _ (List.mem_of_mem_take hf)
  rw [Recomputed, chainHashVersioned_eq, not_and] at hold
  obtain ⟨f, hf⟩ := not_forall.mp (hold hhash)
  obtain ⟨hf, heq⟩ := Classical.not_imp.mp hf
  obtain rfl := eq_of_hash_eq hhonest hstored hfree' he hf (not_not.mp heq).symm
  -- Its number tells where the entry was before.
  obtain ⟨m, hm⟩ := List.mem_iff_getElem?.mp hf
  have hseq := (hstored.numbered k e hk').symm.trans (hhonest.numbered m e hm)
  have hkm : k = m := by
    have hk63 := (List.getElem?_eq_some_iff.mp hk).1
    have hm63 := (List.getElem?_eq_some_iff.mp hm).1
    have htoNat := congrArg UInt64.toNat hseq
    rw [UInt64.toNat_ofNat_of_lt', UInt64.toNat_ofNat_of_lt'] at htoNat
    · omega
    · change _ < 2 ^ 64
      omega
    · change _ < 2 ^ 64
      omega
  subst hkm
  have hsame := hstored.linked.take_eq hhonest.linked
    (fun e he f hf heq => eq_of_hash_eq hhonest hstored hfree' he hf heq) hk' hm rfl
  rwa [List.take_take, min_self] at hsame

/-- Verification of an exchanged ledger ends between the first difference and an entry whose hash
was not computed anew. -/
theorem exists_firstBroken [DecidableEq ψ] (hhonest : Intact codec version honest)
    (hlength : honest.length < 2 ^ 63) (hlength' : stored.length < 2 ^ 63)
    (hfree : CollisionFree codec version (honest ++ stored)) {i k : ℕ}
    (hsame : stored.take i = honest.take i) (hdiffers : stored[i]? ≠ honest[i]?) (hik : i ≤ k)
    (hk : stored[k]? = some e) (hold : ¬ Recomputed codec version honest e) :
    ∃ b, i ≤ b ∧ b ≤ k ∧ Intact codec version (stored.take b) ∧
      ¬ Intact codec version (stored.take (b + 1)) ∧
      firstBroken codec version (genesisHash version) 0 stored = some (UInt64.ofNat b) := by
  have hbroken : ¬ Intact codec version (stored.take (k + 1)) := by
    intro hintact
    have heq := take_eq_of_not_recomputed hhonest hlength hlength' hfree hk hold hintact
    have hat : (stored.take (k + 1))[i]? = (honest.take (k + 1))[i]? := by rw [heq]
    have hlt := Nat.lt_succ_of_le hik
    rw [List.getElem?_take, List.getElem?_take, if_pos hlt, if_pos hlt] at hat
    exact hdiffers hat
  rcases firstBroken_cases version (genesisHash version) 0 stored with
    ⟨-, hintact⟩ | ⟨b, -, hresult, hfront, hb⟩
  · exact absurd (hintact.take (k + 1)) hbroken
  · rw [Nat.zero_add] at hresult
    refine ⟨b, ?_, ?_, hfront, hb, hresult⟩
    · by_contra hlt
      -- Before the first difference the entries are the honest ones.
      have htake : stored.take (b + 1) = honest.take (b + 1) := by
        have h := congrArg (List.take (b + 1)) hsame
        rwa [List.take_take, List.take_take, min_eq_left (by omega)] at h
      rw [htake] at hb
      exact hb (hhonest.take (b + 1))
    · by_contra hlt
      refine hbroken ?_
      have h := hfront.take (k + 1)
      rwa [List.take_take, min_eq_left (by omega)] at h

end Exchanged

/-! ## Runs -/

/-- What is asked of the engine. -/
inductive LedgerOp (ψ : Type) where
  | createLedger (name : String)
  | dropLedger (name : String)
  | append (name : String) (payload : ψ) (timestamp : Option UInt64)
  | snapshot
  | load (i : ℕ)

/-- The engine and the snapshots that were taken. -/
structure LedgerRun (ψ : Type) where
  engine : LedgerEngine ψ
  snapshots : List (EngineSnapshot ψ) := []

namespace LedgerRun

variable (codec : LedgerCodec ψ)

def step (w : LedgerRun ψ) : LedgerOp ψ → Option (LedgerRun ψ)
  | .createLedger name =>
    match w.engine.createLedger name with
    | .ok engine => some { w with engine }
    | .error _ => some w
  | .dropLedger name =>
    match w.engine.dropLedger name with
    | .ok engine => some { w with engine }
    | .error _ => some w
  | .append name payload timestamp =>
    (w.engine.append codec name payload timestamp).map fun result => { w with engine := result.2 }
  | .snapshot => some { w with snapshots := w.snapshots ++ [w.engine.snapshot] }
  | .load i => w.snapshots[i]?.map fun snap => { w with engine := w.engine.loadSnapshot snap }

def system (start : EngineSnapshot ψ) : System (LedgerRun ψ) (LedgerOp ψ) where
  init := { engine := ({} : LedgerEngine ψ).loadSnapshot start }
  step := step codec

/-- All ledgers are intact, in the engine and in the snapshots. -/
structure Sound (w : LedgerRun ψ) : Prop where
  engine : ∀ name ledger, w.engine.ledgers.lookup name = some ledger →
    Intact codec ledger.hashVersion ledger.entries
  snapshots : ∀ snap ∈ w.snapshots, ∀ name ledger, snap.ledgers.lookup name = some ledger →
    Intact codec ledger.hashVersion ledger.entries

variable {codec}

theorem intact_push {ledger ledger' : Ledger ψ} {payload : ψ} {timestamp : UInt64}
    (h : Intact codec ledger.hashVersion ledger.entries)
    (hpush : ledger.push (LedgerEngine.nextEntry codec ledger payload timestamp) = some ledger') :
    Intact codec ledger'.hashVersion ledger'.entries := by
  rw [Ledger.push] at hpush
  split at hpush
  · obtain rfl := Option.some.inj hpush
    have htip : ledger.tip =
        (chain codec ledger.hashVersion).tip (genesisHash ledger.hashVersion) ledger.entries := by
      rw [HashChain.tip_eq]
      rfl
    refine ⟨HashChain.linked_concat h.linked htip ?_, fun j e hj => ?_⟩
    · exact chainHashVersioned_eq ledger.hashVersion
        (LedgerEngine.nextEntry codec ledger payload timestamp)
    · dsimp only at hj
      rcases Nat.lt_trichotomy j ledger.entries.length with hlt | rfl | hlt
      · rw [List.getElem?_append_left hlt] at hj
        exact h.numbered j e hj
      · rw [List.getElem?_concat_length] at hj
        obtain rfl := Option.some.inj hj
        rw [Nat.zero_add]
        rfl
      · rw [List.getElem?_eq_none (by rw [List.length_append]; exact hlt)] at hj
        cases hj
  · cases hpush

/-- One call leaves every ledger intact. -/
theorem Sound.step {w w' : LedgerRun ψ} (h : w.Sound codec) {op : LedgerOp ψ}
    (hstep : w.step codec op = some w') : w'.Sound codec := by
  cases op with
  | createLedger name =>
    rw [LedgerRun.step, LedgerEngine.createLedger] at hstep
    by_cases hname : name ∈ w.engine.ledgers
    · rw [if_pos hname] at hstep
      obtain rfl := Option.some.inj hstep
      exact h
    · rw [if_neg hname] at hstep
      obtain rfl := Option.some.inj hstep
      exact ⟨Table.forall_lookup_insert.mpr ⟨intactFrom_nil, fun name' ledger' _ =>
        h.engine name' ledger'⟩, h.snapshots⟩
  | dropLedger name =>
    rw [LedgerRun.step, LedgerEngine.dropLedger] at hstep
    by_cases hname : name ∈ w.engine.ledgers
    · rw [if_pos hname] at hstep
      obtain rfl := Option.some.inj hstep
      exact ⟨Table.forall_lookup_erase.mpr fun name' ledger' _ => h.engine name' ledger',
        h.snapshots⟩
    · rw [if_neg hname] at hstep
      obtain rfl := Option.some.inj hstep
      exact h
  | append name payload timestamp =>
    obtain ⟨result, hresult, rfl⟩ := Option.map_eq_some_iff.mp hstep
    obtain ⟨ledger', hpush, rfl⟩ := Option.map_eq_some_iff.mp hresult
    have hledger : Intact codec ((w.engine.ledgers.lookup name).getD .default).hashVersion
        ((w.engine.ledgers.lookup name).getD .default).entries := by
      cases hlookup : w.engine.ledgers.lookup name with
      | none => exact intactFrom_nil
      | some ledger => exact h.engine name ledger hlookup
    exact ⟨Table.forall_lookup_insert.mpr ⟨intact_push hledger hpush, fun name' ledger' _ =>
      h.engine name' ledger'⟩, h.snapshots⟩
  | snapshot =>
    obtain rfl := Option.some.inj hstep
    refine ⟨h.engine, fun snap hsnap => ?_⟩
    rcases List.mem_append.mp hsnap with hsnap | hsnap
    · exact h.snapshots snap hsnap
    · obtain rfl := List.mem_singleton.mp hsnap
      exact h.engine
  | load i =>
    obtain ⟨snap, hsnap, rfl⟩ := Option.map_eq_some_iff.mp hstep
    exact ⟨h.snapshots snap (List.mem_of_getElem? hsnap), h.snapshots⟩

end LedgerRun

/-! ## Verification -/

theorem seq_eq_of_intact {codec : LedgerCodec ψ} {ledger : Ledger ψ}
    (h : Intact codec ledger.hashVersion ledger.entries) {i : ℕ} {e : LedgerEntry ψ}
    (hi : ledger.entries[i]? = some e) : e.seq.toNat = i := by
  have hlt := (List.getElem?_eq_some_iff.mp hi).1
  have hlength := ledger.length_lt
  rw [h.numbered i e hi, Nat.zero_add, UInt64.toNat_ofNat_of_lt']
  change _ < 2 ^ 64
  omega

section Verify

variable [DecidableEq ψ] {codec : LedgerCodec ψ}

theorem verify_cases (ledger : Ledger ψ) :
    (Intact codec ledger.hashVersion ledger.entries ∧
      ledger.verify codec =
        { valid := true, entries := ledger.entries.length, brokenAt := none }) ∨
    (¬ Intact codec ledger.hashVersion ledger.entries ∧ (ledger.verify codec).valid = false) := by
  rw [Ledger.verify]
  rcases firstBroken_cases ledger.hashVersion (genesisHash ledger.hashVersion) 0 ledger.entries with
    ⟨hnone, hintact⟩ | ⟨b, -, hsome, -, hbroken⟩
  · rw [hnone]
    exact Or.inl ⟨hintact, rfl⟩
  · rw [hsome]
    exact Or.inr ⟨fun h => hbroken (h.take (b + 1)), rfl⟩

theorem intact_of_valid {ledger : Ledger ψ} (h : (ledger.verify codec).valid = true) :
    Intact codec ledger.hashVersion ledger.entries := by
  rcases @verify_cases ψ _ codec ledger with ⟨hintact, -⟩ | ⟨-, hinvalid⟩
  · exact hintact
  · rw [hinvalid] at h
    cases h

/-- What loads intact ledgers and appends to them has ledgers that verify, each entry at its number;
and a ledger that is exchanged for another does not verify, from its first difference on and up to
the first entry whose hash was not computed anew. -/
theorem tamperEvident (codec : LedgerCodec ψ) :
    (∀ start : EngineSnapshot ψ,
      (∀ name ledger, start.ledgers.lookup name = some ledger →
        (ledger.verify codec).valid = true) →
      ∀ w, (LedgerRun.system codec start).Reachable w →
        ∀ name ledger, w.engine.ledgers.lookup name = some ledger →
          w.engine.verify codec name =
              .ok { valid := true, entries := ledger.entries.length, brokenAt := none } ∧
            ∀ (i : ℕ) (e : LedgerEntry ψ), ledger.entries[i]? = some e → e.seq.toNat = i) ∧
    ∀ honest stored : Ledger ψ, (honest.verify codec).valid = true →
      stored.hashVersion = honest.hashVersion →
      CollisionFree codec honest.hashVersion (honest.entries ++ stored.entries) →
      ∀ i, stored.entries.take i = honest.entries.take i →
        stored.entries[i]? ≠ honest.entries[i]? →
      ∀ (k : ℕ) (e : LedgerEntry ψ), i ≤ k → stored.entries[k]? = some e →
        ¬ Recomputed codec honest.hashVersion honest.entries e →
        ∃ b, i ≤ b ∧ b ≤ k ∧ Intact codec honest.hashVersion (stored.entries.take b) ∧
          ¬ Intact codec honest.hashVersion (stored.entries.take (b + 1)) ∧
          stored.verify codec = { valid := false, entries := stored.entries.length,
                                  brokenAt := some (UInt64.ofNat b) } := by
  constructor
  · intro start hstart w hw name ledger hledger
    have hsound := hw.invariant (P := fun w => w.Sound codec)
      ⟨fun name ledger h => intact_of_valid (hstart name ledger h),
        fun _ hsnap => absurd hsnap List.not_mem_nil⟩
      fun w op w' _ hsound _ hstep => hsound.step hstep
    have hintact := hsound.engine name ledger hledger
    refine ⟨?_, fun i e hi => seq_eq_of_intact hintact hi⟩
    rw [LedgerEngine.verify, hledger]
    rcases @verify_cases ψ _ codec ledger with ⟨-, hvalid⟩ | ⟨hbroken, -⟩
    · dsimp only
      rw [hvalid]
    · exact absurd hintact hbroken
  · intro honest stored hvalid hversion hfree i hsame hdiffers k e hik hk hold
    obtain ⟨b, hib, hbk, hfront, hbroken, hresult⟩ :=
      exists_firstBroken (intact_of_valid hvalid) honest.length_lt stored.length_lt hfree hsame
        hdiffers hik hk hold
    refine ⟨b, hib, hbk, hfront, hbroken, ?_⟩
    rw [Ledger.verify, hversion, hresult]

end Verify

/-! ## A ledger and its forgery -/

section Examples

instance (codec : LedgerCodec ψ) (version : UInt8) (entries : List (LedgerEntry ψ)) :
    Decidable (CollisionFree codec version entries) :=
  inferInstanceAs (Decidable (∀ e ∈ entries, ∀ f ∈ entries, _ = _ → _ = _))

/-- A hash of the last bytes. -/
def tailCodec : LedgerCodec Bytes where
  toVec := id
  toVec_injective := Function.injective_id
  sha256 bytes := (bytes.reverse ++ List.replicate 32 0).take 32
  length_sha256 bytes := by
    rw [List.length_take, List.length_append, List.length_replicate]
    omega

def ledgerOf (payloads : List Bytes) : Ledger Bytes :=
  payloads.foldl (fun ledger payload =>
    (ledger.push (LedgerEngine.nextEntry tailCodec ledger payload 7)).getD ledger) .default

/-- The first payload is changed, and its hash is computed anew. -/
def forgedLedger : Ledger Bytes where
  entries := (ledgerOf [[1], [2]]).entries.modifyHead fun e =>
    { e with payload := [3], hash := chainHash tailCodec e.prevHash e.seq e.timestamp [3] }
  hashVersion := hashVersionSha256
  length_lt := by
    rw [List.length_modifyHead]
    exact (ledgerOf [[1], [2]]).length_lt

/-- Two appends, and an appended entry that is given up again. -/
def ledgerScript : List (LedgerOp Bytes) :=
  [.append "audit" [1] (some 7), .append "audit" [2] none, .snapshot, .append "audit" [4] none,
    .load 0]

/-- The entries that were not given up verify.  Of two payloads the first is changed with its hash:
the second entry is behind the first difference, and its hash was not computed anew. -/
theorem tamperEvident_forged :
    (∃ w, (LedgerRun.system tailCodec {}).run (fun _ _ => True) ledgerScript = some w ∧
      w.engine.verify tailCodec "audit" =
        .ok { valid := true, entries := 2, brokenAt := none }) ∧
    ∃ b : ℕ, 0 ≤ b ∧ b ≤ 1 ∧ forgedLedger.verify tailCodec =
      { valid := false, entries := 2, brokenAt := some (UInt64.ofNat b) } := by
  constructor
  · have hrun : ((LedgerRun.system tailCodec {}).run (fun _ _ => True) ledgerScript).any (fun w =>
        decide ((w.engine.ledgers.lookup "audit").map (fun l => l.entries.length) = some 2)) =
          true := by
      decide +kernel
    obtain ⟨w, hw, hreach, hlength⟩ := System.exists_reach_of_any hrun
    rw [decide_eq_true_eq] at hlength
    obtain ⟨ledger, hledger, hlength⟩ := Option.map_eq_some_iff.mp hlength
    have hverify := ((tamperEvident tailCodec).1 {} (fun _ _ h => nomatch h) w hreach "audit" ledger
      hledger).1
    rw [hlength] at hverify
    exact ⟨w, hw, hverify⟩
  · have hentry : forgedLedger.entries[1]? = (ledgerOf [[1], [2]]).entries[1]? := by
      decide +kernel
    have hsecond : ((ledgerOf [[1], [2]]).entries[1]?).isSome = true := by decide +kernel
    obtain ⟨e, he⟩ := Option.isSome_iff_exists.mp hsecond
    obtain ⟨b, hb, hb', -, -, hresult⟩ := (tamperEvident tailCodec).2 (ledgerOf [[1], [2]])
      forgedLedger (by decide +kernel) (by decide +kernel) (by decide +kernel) 0 rfl
      (by decide +kernel) 1 e (Nat.zero_le 1) (hentry.trans he)
      fun hold => hold.2 e (List.mem_of_getElem? he) rfl
    refine ⟨b, hb, hb', hresult.trans ?_⟩
    have hlength : forgedLedger.entries.length = 2 := by decide +kernel
    rw [hlength]

/-- What would be reported if every change were found where it begins. -/
def ReportsFirstDifference {ψ : Type} [DecidableEq ψ] (codec : LedgerCodec ψ) : Prop :=
  ∀ honest stored : Ledger ψ, (honest.verify codec).valid = true →
    stored.hashVersion = honest.hashVersion →
    CollisionFree codec honest.hashVersion (honest.entries ++ stored.entries) →
    ∀ i, stored.entries.take i = honest.entries.take i →
      stored.entries[i]? ≠ honest.entries[i]? →
    ∀ (k : ℕ) (e : LedgerEntry ψ), i < k → stored.entries[k]? = some e →
      ¬ Recomputed codec honest.hashVersion honest.entries e →
      stored.verify codec = { valid := false, entries := stored.entries.length,
                              brokenAt := some (UInt64.ofNat i) }

/-- The forgery is found at the entry behind it. -/
theorem not_reportsFirstDifference :
    ¬ ∀ codec : LedgerCodec Bytes, ReportsFirstDifference codec := by
  intro h
  have hentry : forgedLedger.entries[1]? = (ledgerOf [[1], [2]]).entries[1]? := by decide +kernel
  have hsecond : ((ledgerOf [[1], [2]]).entries[1]?).isSome = true := by decide +kernel
  obtain ⟨e, he⟩ := Option.isSome_iff_exists.mp hsecond
  have hresult := h tailCodec (ledgerOf [[1], [2]]) forgedLedger (by decide +kernel)
    (by decide +kernel) (by decide +kernel) 0 rfl (by decide +kernel) 1 e Nat.zero_lt_one
    (hentry.trans he) fun hold => hold.2 e (List.mem_of_getElem? he) rfl
  have hbehind : (forgedLedger.verify tailCodec).brokenAt = some 1 := by decide +kernel
  rw [hresult] at hbehind
  exact absurd hbehind (by decide)

end Examples

end AegisDB.Ledgers
