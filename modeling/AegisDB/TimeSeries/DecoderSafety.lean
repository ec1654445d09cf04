import AegisDB.Library.Checked
import AegisDB.TimeSeries.RoundTrip

/-!
# Truncated and corrupt blocks

The decompressor once more, with every operation that may panic: bytes at a place, shifts, sums and
differences, and the memory that is asked for in advance.  From any reader state no operation of
`next` panics, and its answers are those of the decompressor without the checks (`runs_next`).  What
is decoded from the front of the bytes is the front of what is decoded from all of them.  The one
panic is before the first bit is read: memory for as many points as the block says there are.
-/

namespace AegisDB

namespace TimeSeries

open Checked

/-! ## The decompressor with its checks -/

/-- A decompressor and the number of points it has still to read. -/
structure Decoding extends Decompressor where
  remaining : ℕ

namespace Decoding

def setReader (reader : BitReader) (s : Decoding) : Decoding :=
  { s with reader }

def readBit : Program Decoding Bool := do
  let s ← Program.state
  let r := s.reader
  if r.bytePosition ≥ r.data.length then Program.stop
  else
    let byte ← Program.check (index r.data r.bytePosition)
    let position ← Program.check (sub 7 r.bitPosition)
    let amount ← Program.check (shiftAmount 8 position)
    let bitPosition ← Program.check (add 8 r.bitPosition 1)
    if bitPosition = 8 then
      let bytePosition ← Program.check (add 64 r.bytePosition 1)
      Program.change (setReader { r with bytePosition, bitPosition := 0 })
      return byte >>> UInt8.ofNat amount &&& 1 = 1
    else
      Program.change (setReader { r with bitPosition })
      return byte >>> UInt8.ofNat amount &&& 1 = 1

/-- Read bits behind those that a value has already. -/
def readBitsFrom (value : UInt64) : ℕ → Program Decoding UInt64
  | 0 => return value
  | numBits + 1 => do
      let bit ← readBit
      readBitsFrom (value <<< 1 ||| bit.toUInt64) numBits

def readBits (numBits : ℕ) : Program Decoding UInt64 :=
  readBitsFrom 0 numBits

/-- Read a number of so many bits and take an offset from it. -/
def readClass (numBits : ℕ) (offset : ℤ) : Program Decoding Int64 := do
  let value ← readBits numBits
  Program.check (int64 (value.toInt64.toInt - offset))

def readDeltaOfDelta : Program Decoding Int64 := do
  let bit ← readBit
  if !bit then return 0
  let bit ← readBit
  if !bit then readClass 7 63
  else
    let bit ← readBit
    if !bit then readClass 9 255
    else
      let bit ← readBit
      if !bit then readClass 12 2047
      else
        let value ← readBits 64
        return value.toInt64

def decompressTimestamp : Program Decoding Int64 := do
  let deltaOfDelta ← readDeltaOfDelta
  let s ← Program.state
  let delta ← Program.given (checkedAdd s.prevDelta deltaOfDelta)
  Program.change fun s => { s with prevDelta := delta }
  let s ← Program.state
  Program.given (checkedAdd s.prevTimestamp delta)

/-- A difference of numbers of eight bits, if there is one. -/
def checkedSub (a b : ℕ) : Option ℕ :=
  if b ≤ a then some (a - b) else none

/-- A shift of a number of sixty-four bits, if it has so many. -/
def checkedShl (value : UInt64) (amount : ℕ) : Option UInt64 :=
  if amount < 64 then some (value <<< UInt64.ofNat amount) else none

/-- The bits that differ, in the window of the value before. -/
def readSameWindow : Program Decoding UInt64 := do
  let s ← Program.state
  let bits ← Program.given (checkedSub 64 s.prevLeadingZeros)
  let meaningfulBits ← Program.given (checkedSub bits s.prevTrailingZeros)
  if meaningfulBits = 0 then Program.stop
  else
    let value ← readBits meaningfulBits
    Program.given (checkedShl value s.prevTrailingZeros)

/-- The bits that differ, behind the window that they are in. -/
def readNewWindow : Program Decoding UInt64 := do
  let leading ← readBits 6
  let bits ← readBits 6
  let leadingZeros := leading.toUInt8.toNat
  let meaningfulBits := if bits.toUInt8 = 0 then 64 else bits.toUInt8.toNat
  let rest ← Program.given (checkedSub 64 leadingZeros)
  let trailingZeros ← Program.given (checkedSub rest meaningfulBits)
  Program.change fun s =>
    { s with prevLeadingZeros := leadingZeros, prevTrailingZeros := trailingZeros }
  let value ← readBits meaningfulBits
  Program.given (checkedShl value trailingZeros)

def decompressValue : Program Decoding UInt64 := do
  let bit ← readBit
  let s ← Program.state
  if !bit then return s.prevValueBits
  let bit ← readBit
  let xor ← (if !bit then readSameWindow else readNewWindow : Program Decoding UInt64)
  let s ← Program.state
  return s.prevValueBits ^^^ xor

def point (timestamp : Int64) (valueBits : UInt64) : Program Decoding DataPoint := do
  Program.change fun s => { s with prevTimestamp := timestamp, prevValueBits := valueBits }
  let time ← Program.given (DateTime.fromTimestampMillis timestamp)
  return ⟨time, ⟨valueBits⟩⟩

/-- Decode the next data point. -/
def next : Program Decoding DataPoint := do
  let s ← Program.state
  if s.remaining = 0 then Program.stop
  else
    let remaining ← Program.check (sub s.remaining 1)
    Program.change fun s => { s with remaining }
    if s.firstRead then
      Program.change fun s => { s with firstRead := false }
      let timestamp ← readBits 64
      let valueBits ← readBits 64
      point timestamp.toInt64 valueBits
    else
      let timestamp ← decompressTimestamp
      let valueBits ← decompressValue
      point timestamp valueBits

/-- Decode points until there is none.  There is none at the latest when no point remains, so that
one call more than there are points is enough. -/
def collect : ℕ → Decoding → Checked (List DataPoint)
  | 0, _ => .ok []
  | calls + 1, s =>
      match next s with
      | .error e => .error e
      | .ok (none, _) => .ok []
      | .ok (some p, s) => (collect calls s).map (p :: ·)

def start (block : CompressedBlock) : Decoding :=
  { reader := { data := block.data }, remaining := block.count }

/-- Decode all points.  A point takes twenty-four bytes of memory. -/
def decompressAll (block : CompressedBlock) : Checked (List DataPoint) :=
  match withCapacity 24 block.count with
  | .error e => .error e
  | .ok () => collect (block.count + 1) (start block)

/-! ## What the operations do -/

/-- A place in the bytes, and a bit of the byte there.  The bytes are a vector. -/
structure Sound (s : Decoding) : Prop where
  position_lt : s.reader.bitPosition < 8
  length_lt : s.reader.data.length < 2 ^ 63

/-- The program does not panic here, and its answer is that of the decompressor without checks. -/
def Yields {α : Type} (s : Decoding) (m : Program Decoding α) (r : Option (α × Decompressor)) :
    Prop :=
  m.Runs s fun o s' => s'.Sound ∧ s'.remaining = s.remaining ∧ o.map (·, s'.toDecompressor) = r

/-- What a function on readers does to a decompressor. -/
def onReader {α : Type} (f : BitReader → Option (α × BitReader)) (d : Decompressor) :
    Option (α × Decompressor) :=
  (f d.reader).map fun e => (e.1, { d with reader := e.2 })

theorem onReader_bind {α β : Type} (f : BitReader → Option (α × BitReader))
    (h : α × BitReader → Option (β × BitReader)) (d : Decompressor) :
    onReader (fun r => (f r).bind h) d =
      (onReader f d).bind fun e => onReader (fun r => h (e.1, r)) e.2 := by
  dsimp only [onReader]
  cases f d.reader <;> rfl

namespace Yields

variable {α β : Type} {s : Decoding} {m : Program Decoding α} {f : α → Program Decoding β}
  {r : Option (α × Decompressor)} {k : α × Decompressor → Option (β × Decompressor)}

theorem answer (hs : s.Sound) (a : α) : Yields s (pure a) (some (a, s.toDecompressor)) :=
  Program.Runs.answer ⟨hs, rfl, rfl⟩

theorem stop (hs : s.Sound) : Yields s (Program.stop : Program Decoding α) none :=
  Program.Runs.stop ⟨hs, rfl, rfl⟩

/-- Two steps in a row, the second from what the first read. -/
theorem bind (hm : Yields s m r) (hf : ∀ a s', s'.Sound → r = some (a, s'.toDecompressor) →
    Yields s' (f a) (k (a, s'.toDecompressor))) : Yields s (m >>= f) (r.bind k) := by
  refine Program.Runs.bind hm (fun s' ⟨hs', hremaining, hr⟩ => ⟨hs', hremaining, ?_⟩)
    fun a s' ⟨hs', hremaining, hr⟩ => ?_
  · rw [← hr]
    rfl
  · obtain ⟨o, s'', hrun, hs'', hremaining', hk⟩ := hf a s' hs' hr.symm
    refine ⟨o, s'', hrun, hs'', hremaining'.trans hremaining, ?_⟩
    rw [← hr, hk]
    rfl

theorem state {f : Decoding → Program Decoding α} (h : Yields s (f s) r) :
    Yields s (Program.state >>= f) r :=
  h

theorem change {f : Unit → Program Decoding β} {change : Decoding → Decoding}
    {r : Option (β × Decompressor)} (hremaining : (change s).remaining = s.remaining)
    (h : Yields (change s) (f ()) r) : Yields s (Program.change change >>= f) r := by
  obtain ⟨o, s', hrun, hs', hremaining', hr⟩ := h
  exact ⟨o, s', hrun, hs', hremaining'.trans hremaining, hr⟩

theorem given (hs : s.Sound) {o : Option α} {k : α → Option (β × Decompressor)}
    (hf : ∀ a, o = some a → Yields s (f a) (k a)) :
    Yields s (Program.given o >>= f) (o.bind k) := by
  cases o with
  | none => exact ⟨none, s, rfl, hs, rfl, rfl⟩
  | some a => exact hf a rfl

theorem given_some {o : Option α} {a : α} {r : Option (β × Decompressor)} (ho : o = some a)
    (h : Yields s (f a) r) : Yields s (Program.given o >>= f) r := by
  subst ho
  exact h

theorem given_none (hs : s.Sound) {o : Option α} (ho : o = none) :
    Yields s (Program.given o >>= f) none := by
  subst ho
  exact ⟨none, s, rfl, hs, rfl, rfl⟩

theorem given_last (hs : s.Sound) (o : Option α) :
    Yields s (Program.given o) (o.map (·, s.toDecompressor)) :=
  ⟨o, s, rfl, hs, rfl, rfl⟩

end Yields

/-- A bit is read in bounds, as the codec reads it. -/
theorem yields_readBit {s : Decoding} (hs : s.Sound) :
    Yields s readBit (onReader BitReader.readBit s.toDecompressor) := by
  unfold readBit
  change Yields s (if s.reader.bytePosition ≥ s.reader.data.length then _ else _) _
  cases hget : s.reader.data[s.reader.bytePosition]? with
  | none =>
    have hnone : onReader BitReader.readBit s.toDecompressor = none := by
      rw [onReader, BitReader.readBit, hget]
      rfl
    rw [if_pos (List.getElem?_eq_none_iff.mp hget), hnone]
    exact Yields.stop hs
  | some byte =>
    have hlt : s.reader.bytePosition < s.reader.data.length :=
      (List.getElem?_eq_some_iff.mp hget).1
    have hposition := hs.position_lt
    have hlength := hs.length_lt
    rw [if_neg (Nat.not_le.mpr hlt)]
    refine Program.Runs.check (index_of_getElem? hget) ?_
    refine Program.Runs.check (sub_of_le (by omega)) ?_
    refine Program.Runs.check (shiftAmount_of_lt (by omega)) ?_
    refine Program.Runs.check (add_of_lt (by omega)) ?_
    unfold onReader BitReader.readBit
    rw [hget]
    dsimp only
    split_ifs with hfull
    · refine Program.Runs.check (add_of_lt (by omega)) ?_
      exact ⟨_, _, rfl, ⟨Nat.zero_lt_succ 7, hlength⟩, rfl, rfl⟩
    · exact ⟨_, _, rfl, ⟨by dsimp only [setReader]; omega, hlength⟩, rfl, rfl⟩

theorem yields_readBitsFrom {s : Decoding} (hs : s.Sound) (value : UInt64) (numBits : ℕ) :
    Yields s (readBitsFrom value numBits)
      (onReader (fun r => BitReader.readBitsFrom value r numBits) s.toDecompressor) := by
  induction numBits generalizing s value with
  | zero => exact Yields.answer hs value
  | succ numBits ih =>
    have hread : (fun r => BitReader.readBitsFrom value r (numBits + 1)) = fun r =>
        r.readBit.bind fun e =>
          BitReader.readBitsFrom (value <<< 1 ||| e.1.toUInt64) e.2 numBits := by
      funext r
      rw [BitReader.readBitsFrom]
      cases r.readBit <;> rfl
    rw [hread, onReader_bind]
    exact (yields_readBit hs).bind fun bit s' hs' _ => ih hs' (value <<< 1 ||| bit.toUInt64)

theorem yields_readBits {s : Decoding} (hs : s.Sound) (numBits : ℕ) :
    Yields s (readBits numBits) (onReader (fun r => r.readBits numBits) s.toDecompressor) :=
  yields_readBitsFrom hs 0 numBits

theorem toNat_lt_of_readBitsFrom {value v : UInt64} {r r' : BitReader} {numBits width : ℕ}
    (hvalue : value.toNat < 2 ^ width) (hwidth : width + numBits ≤ 64)
    (h : BitReader.readBitsFrom value r numBits = some (v, r')) :
    v.toNat < 2 ^ (width + numBits) := by
  induction numBits generalizing value r width with
  | zero =>
    rw [BitReader.readBitsFrom, Option.some.injEq, Prod.mk.injEq] at h
    rw [← h.1]
    exact hvalue
  | succ numBits ih =>
    rw [BitReader.readBitsFrom] at h
    cases hbit : r.readBit with
    | none =>
      rw [hbit] at h
      cases h
    | some e =>
      obtain ⟨bit, r₁⟩ := e
      rw [hbit] at h
      have hnext : (value <<< 1 ||| bit.toUInt64).toNat < 2 ^ (width + 1) := by
        have hpow : 2 ^ (width + 1) ≤ 2 ^ 64 := Nat.pow_le_pow_right (by decide) (by omega)
        have hdouble : 2 ^ (width + 1) = 2 ^ width * 2 := Nat.pow_succ 2 width
        rw [UInt64.toNat_or, UInt64.toNat_shiftLeft]
        refine Nat.or_lt_two_pow ((Nat.mod_le _ _).trans_lt ?_) ?_
        · rw [UInt64.toNat_one, Nat.shiftLeft_eq, Nat.one_mod_eq_one.mpr (by decide), Nat.pow_one]
          omega
        · have hone : bit.toUInt64.toNat ≤ 1 := by cases bit <;> decide
          have hpos := Nat.two_pow_pos width
          omega
      have hlt := ih hnext (by omega) h
      rwa [Nat.add_assoc, Nat.add_comm 1] at hlt

/-- A number of so many bits is below that power of two. -/
theorem toNat_lt_of_readBits {v : UInt64} {r r' : BitReader} {numBits : ℕ} (hnum : numBits ≤ 64)
    (h : r.readBits numBits = some (v, r')) : v.toNat < 2 ^ numBits := by
  have hzero : (0 : UInt64).toNat < 2 ^ 0 := Nat.zero_lt_one
  have hlt := toNat_lt_of_readBitsFrom hzero (by omega) h
  rwa [Nat.zero_add] at hlt

theorem toNat_lt_of_onReader {v : UInt64} {d d' : Decompressor} {numBits : ℕ}
    (hnum : numBits ≤ 64) (h : onReader (fun r => r.readBits numBits) d = some (v, d')) :
    v.toNat < 2 ^ numBits := by
  obtain ⟨⟨value, r⟩, hvalue, he⟩ := Option.map_eq_some_iff.mp h
  obtain ⟨rfl, -⟩ := Prod.mk.inj he
  exact toNat_lt_of_readBits hnum hvalue

/-! ## The decompressor -/

theorem yields_branch {α : Type} {m m' : Program Decoding α}
    {g g' : BitReader → Option (α × BitReader)}
    (hm : ∀ s : Decoding, s.Sound → Yields s m (onReader g s.toDecompressor))
    (hm' : ∀ s : Decoding, s.Sound → Yields s m' (onReader g' s.toDecompressor)) {s : Decoding}
    (hs : s.Sound) :
    Yields s (readBit >>= fun bit => if !bit then m else m')
      (onReader (fun r => r.readBit.bind fun e => if !e.1 then g e.2 else g' e.2)
        s.toDecompressor) := by
  rw [onReader_bind]
  refine (yields_readBit hs).bind fun bit s' hs' _ => ?_
  cases bit
  · exact hm s' hs'
  · exact hm' s' hs'

theorem yields_readClass {s : Decoding} (hs : s.Sound) {numBits : ℕ} {offset : Int64}
    (hnum : numBits < 63) (hoffset : 0 ≤ offset.toInt) :
    Yields s (readClass numBits offset.toInt)
      (onReader (fun r => (r.readBits numBits).bind fun e => some (e.1.toInt64 - offset, e.2))
        s.toDecompressor) := by
  rw [onReader_bind]
  refine (yields_readBits hs numBits).bind fun value s' hs' hvalue => ?_
  -- the number is small, so that nothing is below the least number
  have hlt := toNat_lt_of_onReader (by omega) hvalue
  have hpow : 2 ^ numBits ≤ 2 ^ 62 := Nat.pow_le_pow_right (by decide) (by omega)
  have hint : value.toInt64.toInt = value.toNat :=
    BitVec.toInt_eq_toNat_of_lt (by change 2 * value.toNat < 2 ^ 64; omega)
  have hupper := offset.toInt_lt
  have hcheck : int64 (value.toInt64.toInt - offset.toInt) = .ok (value.toInt64 - offset) := by
    rw [int64_of_bounds (by omega), Int64.ofInt_sub, Int64.ofInt_toInt, Int64.ofInt_toInt]
  refine ⟨some (value.toInt64 - offset), s', ?_, hs', rfl, rfl⟩
  rw [Program.check, hcheck]
  rfl

theorem yields_readDeltaOfDelta {s : Decoding} (hs : s.Sound) :
    Yields s readDeltaOfDelta (onReader Decompressor.readDeltaOfDelta s.toDecompressor) := by
  have h64 : ∀ s : Decoding, s.Sound → Yields s (readBits 64 >>= fun value => pure value.toInt64)
      (onReader (fun r => (r.readBits 64).bind fun e => some (e.1.toInt64, e.2))
        s.toDecompressor) := fun s hs => by
    rw [onReader_bind]
    exact (yields_readBits hs 64).bind fun value s' hs' _ => Yields.answer hs' value.toInt64
  have h12 := fun (s : Decoding) (hs : s.Sound) => yields_branch
    (fun s hs => @yields_readClass s hs 12 2047 (by decide) (by decide)) h64 hs
  have h9 := fun (s : Decoding) (hs : s.Sound) => yields_branch
    (fun s hs => @yields_readClass s hs 9 255 (by decide) (by decide)) h12 hs
  have h7 := fun (s : Decoding) (hs : s.Sound) => yields_branch
    (fun s hs => @yields_readClass s hs 7 63 (by decide) (by decide)) h9 hs
  exact yields_branch (g := fun r => some (0, r)) (fun s hs => Yields.answer hs 0) h7 hs

theorem decompressTimestamp_eq (d : Decompressor) :
    d.decompressTimestamp = (onReader Decompressor.readDeltaOfDelta d).bind fun e =>
      (checkedAdd e.2.prevDelta e.1).bind fun delta =>
        (checkedAdd e.2.prevTimestamp delta).map (·, { e.2 with prevDelta := delta }) := by
  rw [Decompressor.decompressTimestamp, onReader]
  cases Decompressor.readDeltaOfDelta d.reader with
  | none => rfl
  | some e =>
    cases hdelta : checkedAdd d.prevDelta e.1 with
    | none => simp [hdelta]
    | some delta => cases htime : checkedAdd d.prevTimestamp delta <;> simp [hdelta, htime]

theorem yields_decompressTimestamp {s : Decoding} (hs : s.Sound) :
    Yields s decompressTimestamp s.toDecompressor.decompressTimestamp := by
  rw [decompressTimestamp_eq]
  refine (yields_readDeltaOfDelta hs).bind fun deltaOfDelta s' hs' _ => ?_
  refine Yields.state ?_
  refine Yields.given hs' fun delta _ => ?_
  refine Yields.change rfl ?_
  refine Yields.state ?_
  have hs'' : ({ s' with prevDelta := delta } : Decoding).Sound :=
    ⟨hs'.position_lt, hs'.length_lt⟩
  exact Yields.given_last hs'' _

/-- The bits that differ, in the window of the value before. -/
def sameWindow (d : Decompressor) : Option (UInt64 × Decompressor) :=
  if d.prevLeadingZeros + d.prevTrailingZeros ≥ 64 then none
  else (onReader (fun r => r.readBits (64 - d.prevLeadingZeros - d.prevTrailingZeros)) d).bind
    fun e => some (e.1 <<< UInt64.ofNat d.prevTrailingZeros, e.2)

/-- The bits that differ, in a window that begins after so many zeros. -/
def windowFrom (leading : UInt64) (e : UInt64 × Decompressor) : Option (UInt64 × Decompressor) :=
  let meaningfulBits := if e.1 = 0 then 64 else e.1.toNat
  if leading.toNat + meaningfulBits > 64 then none
  else
    let trailing := 64 - leading.toNat - meaningfulBits
    (onReader (fun r => r.readBits meaningfulBits) { e.2 with
      prevLeadingZeros := leading.toNat, prevTrailingZeros := trailing }).bind fun e' =>
        some (e'.1 <<< UInt64.ofNat trailing, e'.2)

/-- The bits that differ, behind the window that they are in. -/
def newWindow (d : Decompressor) : Option (UInt64 × Decompressor) :=
  (onReader (fun r => r.readBits 6) d).bind fun e =>
    (onReader (fun r => r.readBits 6) e.2).bind (windowFrom e.1)

theorem decompressValue_eq (d : Decompressor) :
    d.decompressValue = (onReader BitReader.readBit d).bind fun e =>
      if !e.1 then some (e.2.prevValueBits, e.2)
      else (onReader BitReader.readBit e.2).bind fun e' =>
        (if !e'.1 then sameWindow e'.2 else newWindow e'.2).bind fun e'' =>
          some (e''.2.prevValueBits ^^^ e''.1, e''.2) := by
  rw [Decompressor.decompressValue, onReader]
  cases d.reader.readBit with
  | none => rfl
  | some e =>
    obtain ⟨bit, r⟩ := e
    cases bit with
    | false => rfl
    | true =>
      dsimp only [onReader, Option.map_some, Option.bind_some]
      cases hbit : r.readBit with
      | none => simp [hbit]
      | some e =>
        obtain ⟨bit, r'⟩ := e
        cases bit with
        | false =>
          simp only [hbit, Bool.not_true, Bool.false_eq_true, if_false, Option.bind_eq_bind,
            Option.bind_some, Option.map_some, Bool.not_false, if_true, sameWindow, onReader]
          split_ifs
          · rfl
          · cases r'.readBits (64 - d.prevLeadingZeros - d.prevTrailingZeros) <;> rfl
        | true =>
          simp only [hbit, Bool.not_true, Bool.false_eq_true, if_false, Option.bind_eq_bind,
            Option.bind_some, Option.map_some, newWindow, onReader]
          cases hleading : r'.readBits 6 with
          | none => rfl
          | some e =>
            obtain ⟨leading, r₁⟩ := e
            simp only [Option.bind_some, Option.map_some]
            cases hbits : r₁.readBits 6 with
            | none => rfl
            | some e =>
              obtain ⟨bits, r₂⟩ := e
              simp only [Option.bind_some, Option.map_some, windowFrom, onReader]
              generalize (if bits = 0 then 64 else bits.toNat) = meaningfulBits
              split_ifs
              · rfl
              · cases r₂.readBits meaningfulBits <;> rfl

theorem yields_shifted {s : Decoding} (hs : s.Sound) (numBits : ℕ) {amount : ℕ}
    (hamount : amount < 64) :
    Yields s (readBits numBits >>= fun value => Program.given (checkedShl value amount))
      ((onReader (fun r => r.readBits numBits) s.toDecompressor).bind fun e =>
        some (e.1 <<< UInt64.ofNat amount, e.2)) := by
  refine (yields_readBits hs numBits).bind fun value s' hs' _ => ?_
  rw [checkedShl, if_pos hamount]
  exact Yields.given_last hs' _

theorem yields_sameWindow {s : Decoding} (hs : s.Sound) :
    Yields s readSameWindow (sameWindow s.toDecompressor) := by
  unfold readSameWindow sameWindow
  refine Yields.state ?_
  by_cases hleading : s.prevLeadingZeros ≤ 64
  · refine Yields.given_some (if_pos hleading) ?_
    by_cases htrailing : s.prevTrailingZeros ≤ 64 - s.prevLeadingZeros
    · refine Yields.given_some (if_pos htrailing) ?_
      by_cases hzero : 64 - s.prevLeadingZeros - s.prevTrailingZeros = 0
      · rw [if_pos hzero, if_pos (by omega)]
        exact Yields.stop hs
      · rw [if_neg hzero, if_neg (by omega)]
        exact yields_shifted hs _ (by omega)
    · rw [if_pos (by omega)]
      exact Yields.given_none hs (if_neg htrailing)
  · rw [if_pos (by omega)]
    exact Yields.given_none hs (if_neg hleading)

/-- The lengths of a new window are at most 6 bits, so no shift is too long. -/
theorem yields_newWindow {s : Decoding} (hs : s.Sound) :
    Yields s readNewWindow (newWindow s.toDecompressor) := by
  unfold readNewWindow newWindow
  refine (yields_readBits hs 6).bind fun leading s₁ hs₁ hleading => ?_
  refine (yields_readBits hs₁ 6).bind fun bits s₂ hs₂ hbits => ?_
  -- six bits are a number of eight bits
  have hleading_lt : leading.toNat < 64 := toNat_lt_of_onReader (by decide) hleading
  have hbits_lt : bits.toNat < 64 := toNat_lt_of_onReader (by decide) hbits
  have hleadingZeros : leading.toUInt8.toNat = leading.toNat := by
    rw [UInt64.toNat_toUInt8]
    omega
  have hbits' : bits.toUInt8.toNat = bits.toNat := by
    rw [UInt64.toNat_toUInt8]
    omega
  have hzero : bits.toUInt8 = 0 ↔ bits = 0 := by
    rw [← UInt8.toNat_inj, ← UInt64.toNat_inj, hbits']
    rfl
  have hpositive : bits ≠ 0 → bits.toNat ≠ 0 := fun hne h => hne (UInt64.toNat_inj.mp h)
  have hmeaningful : (if bits.toUInt8 = 0 then 64 else bits.toUInt8.toNat) =
      if bits = 0 then 64 else bits.toNat := by
    simp only [hzero, hbits']
  have hmeaningful_pos : 0 < if bits = 0 then 64 else bits.toNat := by
    split_ifs with h
    · decide
    · exact Nat.pos_of_ne_zero (hpositive h)
  unfold windowFrom
  dsimp only
  rw [hleadingZeros, hmeaningful]
  generalize (if bits = 0 then 64 else bits.toNat) = meaningfulBits at hmeaningful_pos
  refine Yields.given_some (if_pos hleading_lt.le) ?_
  by_cases hfits : meaningfulBits ≤ 64 - leading.toNat
  · rw [if_neg (by omega)]
    refine Yields.given_some (if_pos hfits) ?_
    refine Yields.change rfl ?_
    have hs₃ : ({ s₂ with prevLeadingZeros := leading.toNat,
                          prevTrailingZeros := 64 - leading.toNat - meaningfulBits } :
        Decoding).Sound := ⟨hs₂.position_lt, hs₂.length_lt⟩
    exact yields_shifted hs₃ meaningfulBits (by omega)
  · rw [if_pos (by omega)]
    exact Yields.given_none hs₂ (if_neg hfits)

theorem yields_decompressValue {s : Decoding} (hs : s.Sound) :
    Yields s decompressValue s.toDecompressor.decompressValue := by
  rw [decompressValue_eq]
  refine (yields_readBit hs).bind fun bit s₁ hs₁ _ => ?_
  refine Yields.state ?_
  cases bit with
  | false => exact Yields.answer hs₁ s₁.prevValueBits
  | true =>
    refine (yields_readBit hs₁).bind fun bit s₂ hs₂ _ => ?_
    have hxor : Yields s₂ (if !bit then readSameWindow else readNewWindow)
        (if !bit then sameWindow s₂.toDecompressor else newWindow s₂.toDecompressor) := by
      cases bit
      · exact yields_sameWindow hs₂
      · exact yields_newWindow hs₂
    refine hxor.bind fun xor s₃ hs₃ _ => ?_
    exact Yields.state (Yields.answer hs₃ _)

/-- The point of a time and a value, if the calendar has the time. -/
def pointOf (timestamp : Int64) (valueBits : UInt64) (d : Decompressor) :
    Option (DataPoint × Decompressor) :=
  (DateTime.fromTimestampMillis timestamp).bind fun time =>
    some (⟨time, ⟨valueBits⟩⟩, { d with prevTimestamp := timestamp, prevValueBits := valueBits })

theorem yields_point {s : Decoding} (hs : s.Sound) (timestamp : Int64) (valueBits : UInt64) :
    Yields s (point timestamp valueBits) (pointOf timestamp valueBits s.toDecompressor) := by
  have hs' : ({ s with prevTimestamp := timestamp, prevValueBits := valueBits } : Decoding).Sound :=
    ⟨hs.position_lt, hs.length_lt⟩
  refine Yields.change rfl ?_
  exact Yields.given hs' fun time _ => Yields.answer hs' _

theorem next_eq (d : Decompressor) :
    d.next = if d.firstRead = true then
        (onReader (fun r => r.readBits 64) { d with firstRead := false }).bind fun e =>
          (onReader (fun r => r.readBits 64) e.2).bind fun e' => pointOf e.1.toInt64 e'.1 e'.2
      else d.decompressTimestamp.bind fun e =>
        e.2.decompressValue.bind fun e' => pointOf e.1 e'.1 e'.2 := by
  rw [Decompressor.next]
  split_ifs
  · dsimp only [onReader]
    cases d.reader.readBits 64 with
    | none => rfl
    | some e =>
      dsimp only [Option.map_some, Option.bind_some, Option.bind_eq_bind]
      cases e.2.readBits 64 with
      | none => rfl
      | some e' => rfl
  · rfl

/-- **Decoding a point.**  From any reader state, decoding the next point does not panic, and its
answer is that of the decompressor without checks. -/
theorem runs_next {s : Decoding} (hs : s.Sound) :
    next.Runs s fun o s' => s'.Sound ∧ s'.remaining = s.remaining - 1 ∧
      o.map (·, s'.toDecompressor) =
        if s.remaining = 0 then none else s.toDecompressor.next := by
  unfold next
  change (if s.remaining = 0 then _ else _ : Program Decoding DataPoint).Runs s _
  by_cases hremaining : s.remaining = 0
  · rw [if_pos hremaining]
    exact Program.Runs.stop ⟨hs, by omega, (if_pos hremaining).symm⟩
  · rw [if_neg hremaining]
    refine Program.Runs.check (sub_of_le (by omega)) ?_
    have hs₁ : ({ s with remaining := s.remaining - 1 } : Decoding).Sound :=
      ⟨hs.position_lt, hs.length_lt⟩
    have hs₂ : ({ s with remaining := s.remaining - 1, firstRead := false } : Decoding).Sound :=
      ⟨hs.position_lt, hs.length_lt⟩
    have hnext : Yields { s with remaining := s.remaining - 1 }
        (if s.firstRead then do
          Program.change fun s => { s with firstRead := false }
          let timestamp ← readBits 64
          let valueBits ← readBits 64
          point timestamp.toInt64 valueBits
        else do
          let timestamp ← decompressTimestamp
          let valueBits ← decompressValue
          point timestamp valueBits) s.toDecompressor.next := by
      rw [next_eq]
      split_ifs
      · refine Yields.change rfl ?_
        refine (yields_readBits hs₂ 64).bind fun timestamp s' hs' _ => ?_
        refine (yields_readBits hs' 64).bind fun valueBits s'' hs'' _ => ?_
        exact yields_point hs'' timestamp.toInt64 valueBits
      · refine (yields_decompressTimestamp hs₁).bind fun timestamp s' hs' _ => ?_
        refine (yields_decompressValue hs').bind fun valueBits s'' hs'' _ => ?_
        exact yields_point hs'' timestamp valueBits
    rw [if_neg hremaining]
    exact hnext

/-- The decoder stops after what the block counts. -/
theorem collect_eq {s : Decoding} (hs : s.Sound) {calls : ℕ} (hcalls : s.remaining < calls) :
    collect calls s = .ok (s.toDecompressor.decompress s.remaining) := by
  induction calls generalizing s with
  | zero => exact absurd hcalls (Nat.not_lt_zero _)
  | succ calls ih =>
    obtain ⟨o, s', hnext, hs', hremaining, ho⟩ := runs_next hs
    rw [collect, hnext]
    cases hzero : s.remaining with
    | zero =>
      rw [if_pos hzero] at ho
      obtain rfl := Option.map_eq_none_iff.mp ho
      rfl
    | succ remaining =>
      rw [if_neg (by omega)] at ho
      rw [Decompressor.decompress, ← ho]
      cases o with
      | none => rfl
      | some p =>
        have hrest : s'.remaining = remaining := by omega
        dsimp only [Option.map_some]
        rw [ih hs' (by omega), hrest]
        rfl

/-! ## The front of the bytes -/

/-- A reader with more bytes behind those that it has. -/
def moreBytes (tail : Bytes) (r : BitReader) : BitReader :=
  { r with data := r.data ++ tail }

/-- A decompressor with more bytes behind those that it has. -/
def withMore (tail : Bytes) (d : Decompressor) : Decompressor :=
  { d with reader := moreBytes tail d.reader }

def Steady {α : Type} (g : Decompressor → Option (α × Decompressor)) : Prop :=
  ∀ d a d' tail, g d = some (a, d') → g (withMore tail d) = some (a, withMore tail d')

/-- An answer stays the same with more bytes, of a reader. -/
def SteadyReader {α : Type} (f : BitReader → Option (α × BitReader)) : Prop :=
  ∀ r a r' tail, f r = some (a, r') → f (moreBytes tail r) = some (a, moreBytes tail r')

namespace SteadyReader

variable {α β : Type} {f : BitReader → Option (α × BitReader)}
  {h : α × BitReader → Option (β × BitReader)}

theorem answer (a : α) : SteadyReader fun r => some (a, r) := by
  rintro r b r' tail ⟨⟩
  rfl

theorem bind (hf : SteadyReader f) (hh : ∀ a, SteadyReader fun r => h (a, r)) :
    SteadyReader fun r => (f r).bind h := by
  intro r b r' tail hb
  obtain ⟨⟨a, r₁⟩, ha, hb⟩ := Option.bind_eq_some_iff.mp hb
  dsimp only
  rw [hf r a r₁ tail ha, Option.bind_some]
  exact hh a r₁ b r' tail hb

theorem onReader (hf : SteadyReader f) : Steady (onReader f) := by
  intro d a d' tail ha
  obtain ⟨⟨b, r⟩, hb, he⟩ := Option.map_eq_some_iff.mp ha
  obtain ⟨rfl, rfl⟩ := Prod.mk.inj he
  unfold Decoding.onReader
  have hread : f (withMore tail d).reader = some (b, moreBytes tail r) := hf d.reader b r tail hb
  rw [hread]
  rfl

end SteadyReader

theorem steadyReader_readBit : SteadyReader BitReader.readBit := by
  intro r a r' tail h
  unfold BitReader.readBit at h ⊢
  cases hget : r.data[r.bytePosition]? with
  | none =>
    rw [hget] at h
    cases h
  | some byte =>
    have hmore : (moreBytes tail r).data[(moreBytes tail r).bytePosition]? = some byte := by
      change (moreBytes tail r).data[r.bytePosition]? = some byte
      rw [moreBytes, List.getElem?_append_left (List.getElem?_eq_some_iff.mp hget).1, hget]
    rw [hget] at h
    rw [hmore]
    dsimp only at h ⊢
    by_cases hfull : r.bitPosition + 1 = 8
    · have hfull' : (moreBytes tail r).bitPosition + 1 = 8 := hfull
      rw [if_pos hfull] at h
      rw [if_pos hfull']
      obtain ⟨rfl, rfl⟩ := Prod.mk.inj (Option.some.inj h)
      rfl
    · have hfull' : ¬ (moreBytes tail r).bitPosition + 1 = 8 := hfull
      rw [if_neg hfull] at h
      rw [if_neg hfull']
      obtain ⟨rfl, rfl⟩ := Prod.mk.inj (Option.some.inj h)
      rfl

theorem SteadyReader.branch {α : Type} {g g' : BitReader → Option (α × BitReader)}
    (hg : SteadyReader g) (hg' : SteadyReader g') :
    SteadyReader fun r => r.readBit.bind fun e => if !e.1 then g e.2 else g' e.2 := by
  refine steadyReader_readBit.bind fun bit => ?_
  cases bit
  · exact hg
  · exact hg'

theorem steadyReader_readBitsFrom (value : UInt64) (numBits : ℕ) :
    SteadyReader fun r => BitReader.readBitsFrom value r numBits := by
  induction numBits generalizing value with
  | zero => exact SteadyReader.answer value
  | succ numBits ih =>
    have hread : (fun r => BitReader.readBitsFrom value r (numBits + 1)) = fun r =>
        r.readBit.bind fun e =>
          BitReader.readBitsFrom (value <<< 1 ||| e.1.toUInt64) e.2 numBits := by
      funext r
      rw [BitReader.readBitsFrom]
      cases r.readBit <;> rfl
    rw [hread]
    exact steadyReader_readBit.bind fun bit => ih (value <<< 1 ||| bit.toUInt64)

theorem steadyReader_readBits (numBits : ℕ) : SteadyReader fun r => r.readBits numBits :=
  steadyReader_readBitsFrom 0 numBits

theorem steadyReader_readDeltaOfDelta : SteadyReader Decompressor.readDeltaOfDelta := by
  have hclass : ∀ (numBits : ℕ) (offset : Int64), SteadyReader fun r =>
      (r.readBits numBits).bind fun e => some (e.1.toInt64 - offset, e.2) := fun numBits offset =>
    (steadyReader_readBits numBits).bind fun value => SteadyReader.answer (value.toInt64 - offset)
  have h64 : SteadyReader fun r => (r.readBits 64).bind fun e => some (e.1.toInt64, e.2) :=
    (steadyReader_readBits 64).bind fun value => SteadyReader.answer value.toInt64
  exact (SteadyReader.answer 0).branch
    ((hclass 7 63).branch ((hclass 9 255).branch ((hclass 12 2047).branch h64)))

namespace Steady

variable {α β : Type} {g g' : Decompressor → Option (α × Decompressor)}
  {k : α × Decompressor → Option (β × Decompressor)}

theorem bind (hg : Steady g) (hk : ∀ a, Steady fun d => k (a, d)) :
    Steady fun d => (g d).bind k := by
  intro d b d' tail hb
  obtain ⟨⟨a, d₁⟩, ha, hb⟩ := Option.bind_eq_some_iff.mp hb
  dsimp only
  rw [hg d a d₁ tail ha, Option.bind_some]
  exact hk a d₁ b d' tail hb

end Steady

theorem steady_decompressTimestamp : Steady Decompressor.decompressTimestamp := by
  have heq : Decompressor.decompressTimestamp = _ := funext decompressTimestamp_eq
  rw [heq]
  refine steadyReader_readDeltaOfDelta.onReader.bind fun deltaOfDelta d a d' tail h => ?_
  obtain ⟨delta, hdelta, htime⟩ := Option.bind_eq_some_iff.mp h
  obtain ⟨timestamp, htimestamp, he⟩ := Option.map_eq_some_iff.mp htime
  obtain ⟨rfl, rfl⟩ := Prod.mk.inj he
  dsimp only [withMore] at hdelta htimestamp ⊢
  rw [hdelta, Option.bind_some, htimestamp]
  rfl

theorem steady_shifted (numBits : ℕ) (amount : UInt64) :
    Steady fun d => (onReader (fun r => r.readBits numBits) d).bind fun e =>
      some (e.1 <<< amount, e.2) := by
  refine (steadyReader_readBits numBits).onReader.bind fun value d a d' tail h => ?_
  obtain ⟨rfl, rfl⟩ := Prod.mk.inj (Option.some.inj h)
  rfl

theorem steady_sameWindow : Steady sameWindow := by
  intro d a d' tail h
  unfold sameWindow at h ⊢
  by_cases hwindow : d.prevLeadingZeros + d.prevTrailingZeros ≥ 64
  · rw [if_pos hwindow] at h
    cases h
  · rw [if_neg hwindow] at h
    have hwindow' : ¬ (withMore tail d).prevLeadingZeros +
        (withMore tail d).prevTrailingZeros ≥ 64 := hwindow
    rw [if_neg hwindow']
    exact steady_shifted _ _ d a d' tail h

theorem steady_newWindow : Steady newWindow := by
  refine (steadyReader_readBits 6).onReader.bind fun leading => ?_
  dsimp only
  refine (steadyReader_readBits 6).onReader.bind fun bits d a d' tail h => ?_
  unfold windowFrom at h ⊢
  dsimp only at h ⊢
  generalize (if bits = 0 then 64 else bits.toNat) = meaningfulBits at h ⊢
  by_cases hfits : leading.toNat + meaningfulBits > 64
  · rw [if_pos hfits] at h
    cases h
  · rw [if_neg hfits] at h ⊢
    exact steady_shifted _ _ _ a d' tail h

theorem steady_decompressValue : Steady Decompressor.decompressValue := by
  have heq : Decompressor.decompressValue = _ := funext decompressValue_eq
  rw [heq]
  refine steadyReader_readBit.onReader.bind fun bit => ?_
  cases bit with
  | false =>
    intro d a d' tail h
    obtain ⟨rfl, rfl⟩ := Prod.mk.inj (Option.some.inj h)
    rfl
  | true =>
    refine steadyReader_readBit.onReader.bind fun bit => ?_
    have hwindow : Steady fun d => if !bit then sameWindow d else newWindow d := by
      cases bit
      · exact steady_sameWindow
      · exact steady_newWindow
    refine hwindow.bind fun xor d a d' tail h => ?_
    obtain ⟨rfl, rfl⟩ := Prod.mk.inj (Option.some.inj h)
    rfl

theorem steady_pointOf (timestamp : Int64) (valueBits : UInt64) :
    Steady (pointOf timestamp valueBits) := by
  intro d a d' tail h
  obtain ⟨time, htime, he⟩ := Option.bind_eq_some_iff.mp h
  obtain ⟨rfl, rfl⟩ := Prod.mk.inj (Option.some.inj he)
  rw [pointOf, htime]
  rfl

/-- More bytes behind a block do not change what was read. -/
theorem steady_next : Steady Decompressor.next := by
  have hfirstPoint : Steady fun d => (onReader (fun r => r.readBits 64) d).bind fun e =>
      (onReader (fun r => r.readBits 64) e.2).bind fun e' => pointOf e.1.toInt64 e'.1 e'.2 := by
    refine (steadyReader_readBits 64).onReader.bind fun timestamp => ?_
    dsimp only
    exact (steadyReader_readBits 64).onReader.bind fun valueBits =>
      steady_pointOf timestamp.toInt64 valueBits
  have hpoint : Steady fun d => d.decompressTimestamp.bind fun e =>
      e.2.decompressValue.bind fun e' => pointOf e.1 e'.1 e'.2 := by
    refine steady_decompressTimestamp.bind fun timestamp => ?_
    dsimp only
    exact steady_decompressValue.bind fun valueBits => steady_pointOf timestamp valueBits
  intro d a d' tail h
  rw [next_eq] at h ⊢
  by_cases hfirst : d.firstRead = true
  · have hfirst' : (withMore tail d).firstRead = true := hfirst
    rw [if_pos hfirst] at h
    rw [if_pos hfirst']
    exact hfirstPoint { d with firstRead := false } a d' tail h
  · have hfirst' : ¬ (withMore tail d).firstRead = true := hfirst
    rw [if_neg hfirst] at h
    rw [if_neg hfirst']
    exact hpoint d a d' tail h

/-- By induction on the points that remain. -/
theorem decompress_isPrefix (d : Decompressor) (tail : Bytes) (remaining : ℕ) :
    d.decompress remaining <+: (withMore tail d).decompress remaining := by
  induction remaining generalizing d with
  | zero => exact List.prefix_rfl
  | succ remaining ih =>
    rw [Decompressor.decompress]
    cases hnext : d.next with
    | none => exact List.nil_prefix
    | some e =>
      rw [Decompressor.decompress, steady_next d e.1 e.2 tail hnext]
      exact List.prefix_cons_inj e.1 |>.mpr (ih e.2)

end Decoding

/-! ## Blocks in memory -/

/-- A block in memory: its bytes are a vector, and its count is a number of sixty-four bits. -/
structure MemoryBlock extends CompressedBlock where
  length_lt : data.length < 2 ^ 63
  count_lt : count < 2 ^ 64

def CompressedBlock.truncate (block : CompressedBlock) (n : ℕ) : CompressedBlock :=
  { block with data := block.data.take n }

/-- A block is decoded without a panic, to no more points than it says there are; and if its bytes
are the front of those of some points, to the first of these points. -/
def SafelyDecoded (block : CompressedBlock) : Prop :=
  ∃ decoded, Decoding.decompressAll block = .ok decoded ∧ decoded.length ≤ block.count ∧
    ∀ points n, block = (Compressor.compressAll points).truncate n →
      decoded.map (fun p => (p.timestamp.timestampMillis, p.value.bits)) <+:
        points.map fun p => (p.timestamp.timestampMillis, p.value.bits)

theorem length_decompress_le (d : Decompressor) (remaining : ℕ) :
    (d.decompress remaining).length ≤ remaining := by
  induction remaining generalizing d with
  | zero => exact Nat.le_refl 0
  | succ remaining ih =>
    rw [Decompressor.decompress]
    cases d.next with
    | none => exact Nat.zero_le _
    | some e => exact Nat.succ_le_succ (ih e.2)

theorem decompressAll_truncate_isPrefix (points : List DataPoint) (n : ℕ) :
    Decompressor.decompressAll ((Compressor.compressAll points).truncate n) <+:
      points.map DataPoint.stored := by
  have hall : Decompressor.decompressAll (Compressor.compressAll points) =
      points.map DataPoint.stored := by
    have hdecode := decodeBlock_compressAll ⟨fun _ => none⟩ points
    rwa [decodeBlock, not_isNexusBlock_compressAll, Bool.not_false, if_pos rfl] at hdecode
  rw [← hall]
  have hprefix := Decoding.decompress_isPrefix
    { reader := { data := (Compressor.compressAll points).data.take n } }
    ((Compressor.compressAll points).data.drop n) (Compressor.compressAll points).count
  rwa [Decoding.withMore, Decoding.moreBytes, List.take_append_drop] at hprefix

/-- **Truncated and corrupt blocks.**  A block is decoded safely exactly if there can be memory for
as many points as it says there are. -/
theorem safelyDecoded_iff (block : MemoryBlock) :
    SafelyDecoded block.toCompressedBlock ↔ block.count * 24 ≤ 2 ^ 63 - 1 := by
  have hsound : (Decoding.start block.toCompressedBlock).Sound :=
    ⟨Nat.zero_lt_succ 7, block.length_lt⟩
  have hcollect := Decoding.collect_eq hsound (Nat.lt_succ_self block.count)
  constructor
  · rintro ⟨decoded, hdecoded, -⟩
    by_contra hlarge
    rw [Decoding.decompressAll, withCapacity, if_neg hlarge] at hdecoded
    cases hdecoded
  · intro hsmall
    refine ⟨Decompressor.decompressAll block.toCompressedBlock, ?_, ?_, fun points n hblock => ?_⟩
    · rw [Decoding.decompressAll, withCapacity, if_pos hsmall]
      exact hcollect
    · exact length_decompress_le _ _
    · rw [hblock]
      have hprefix := (decompressAll_truncate_isPrefix points n).map
        fun p => (p.timestamp.timestampMillis, p.value.bits)
      rw [List.map_map] at hprefix
      convert hprefix using 1
      exact List.map_congr_left fun p _ =>
        congrArg (·, p.value.bits) p.timestamp.timestampMillis_truncated.symm

/-- A block without bytes that says it has as many points as can be said. -/
theorem not_safelyDecoded :
    ¬ SafelyDecoded { data := [], firstTimestamp := 0, lastTimestamp := 0, count := 2 ^ 64 - 1,
                      checksum := 0 } := by
  rintro ⟨decoded, hdecoded, -⟩
  rw [Decoding.decompressAll, withCapacity, if_neg (by decide)] at hdecoded
  cases hdecoded

end TimeSeries

end AegisDB
