import AegisDB.Library.Bytes

/-!
# Logs of frames

A frame format encodes records so that the first record of a byte string can be told from what
follows it, and a byte string that breaks off within a record has no first record.  A log is read
record by record up to the first place where there is none.  What is appended behind whole records
is read (`read_append`); of what is cut off, the records that fit are read (`read_take`).
-/

namespace AegisDB

/-- A format of self-delimiting records. -/
structure FrameFormat (R : Type*) where
  encode : R → Bytes
  /-- The first record of a byte string, and what follows it. -/
  next : Bytes → Option (R × Bytes)
  Valid : R → Prop
  /-- An encoded record is read back, whatever follows it. -/
  next_encode : ∀ r, Valid r → ∀ rest, next (encode r ++ rest) = some (r, rest)
  next_take : ∀ r, Valid r → ∀ n < (encode r).length, next ((encode r).take n) = none
  next_length : ∀ bytes r rest, next bytes = some (r, rest) → rest.length < bytes.length
  next_valid : ∀ bytes r rest, next bytes = some (r, rest) → Valid r

namespace FrameFormat

variable {R : Type*} (F : FrameFormat R)

def encodeAll (rs : List R) : Bytes :=
  rs.flatMap F.encode

/-- Read records until there is none, at most so many. -/
def readUpTo : ℕ → Bytes → List R
  | 0, _ => []
  | fuel + 1, bytes =>
    match F.next bytes with
    | some (r, rest) => r :: readUpTo fuel rest
    | none => []

/-- Read all records.  Every record takes at least one byte. -/
def read (bytes : Bytes) : List R :=
  F.readUpTo bytes.length bytes

/-- The leading records whose encodings fit into so many bytes. -/
def fitting : ℕ → List R → List R
  | _, [] => []
  | n, r :: rs =>
    if (F.encode r).length ≤ n then r :: fitting (n - (F.encode r).length) rs else []

/-- The bytes are whole records, with nothing behind them. -/
def Whole (bytes : Bytes) : Prop :=
  F.encodeAll (F.read bytes) = bytes

instance (bytes : Bytes) : Decidable (F.Whole bytes) :=
  inferInstanceAs (Decidable (_ = _))

@[simp] theorem encodeAll_nil : F.encodeAll [] = [] := rfl

theorem encodeAll_cons (r : R) (rs : List R) :
    F.encodeAll (r :: rs) = F.encode r ++ F.encodeAll rs := rfl

theorem encodeAll_append (rs rs' : List R) :
    F.encodeAll (rs ++ rs') = F.encodeAll rs ++ F.encodeAll rs' :=
  List.flatMap_append

theorem readUpTo_eq_read {fuel : ℕ} {bytes : Bytes} (h : bytes.length ≤ fuel) :
    F.readUpTo fuel bytes = F.read bytes := by
  suffices hall : ∀ fuel fuel' (bytes : Bytes), bytes.length ≤ fuel → bytes.length ≤ fuel' →
      F.readUpTo fuel bytes = F.readUpTo fuel' bytes from hall _ _ _ h (Nat.le_refl _)
  intro fuel
  induction fuel with
  | zero =>
    intro fuel' bytes hb _
    obtain rfl := List.length_eq_zero_iff.mp (Nat.le_zero.mp hb)
    cases fuel' with
    | zero => rfl
    | succ fuel' =>
      cases hnext : F.next [] with
      | none => simp [readUpTo, hnext]
      | some p => exact absurd (F.next_length _ _ _ hnext) (Nat.not_lt_zero _)
  | succ fuel ih =>
    intro fuel' bytes hb hb'
    cases hnext : F.next bytes with
    | none => cases fuel' <;> simp [readUpTo, hnext]
    | some p =>
      obtain ⟨r, rest⟩ := p
      have hlt := F.next_length _ _ _ hnext
      cases fuel' with
      | zero => omega
      | succ fuel' =>
        simp only [readUpTo, hnext]
        rw [ih fuel' rest (by omega) (by omega)]

theorem read_of_none {bytes : Bytes} (h : F.next bytes = none) : F.read bytes = [] := by
  unfold read
  cases bytes.length with
  | zero => rfl
  | succ n => simp [readUpTo, h]

theorem read_of_some {bytes rest : Bytes} {r : R} (h : F.next bytes = some (r, rest)) :
    F.read bytes = r :: F.read rest := by
  have hlt := F.next_length _ _ _ h
  have hmore : bytes.length ≤ bytes.length + 1 := Nat.le_succ _
  rw [← F.readUpTo_eq_read hmore, readUpTo, h]
  simp only
  rw [F.readUpTo_eq_read hlt.le]

@[simp] theorem read_nil : F.read [] = [] := rfl

theorem valid_of_mem_read (bytes : Bytes) : ∀ r ∈ F.read bytes, F.Valid r := by
  suffices hall : ∀ n (bytes : Bytes), bytes.length ≤ n → ∀ r ∈ F.read bytes, F.Valid r from
    hall _ _ (Nat.le_refl _)
  intro n
  induction n with
  | zero =>
    intro bytes hb r hr
    rw [List.length_eq_zero_iff.mp (Nat.le_zero.mp hb)] at hr
    cases hr
  | succ n ih =>
    intro bytes hb r hr
    cases hnext : F.next bytes with
    | none =>
      rw [F.read_of_none hnext] at hr
      cases hr
    | some p =>
      obtain ⟨r', rest⟩ := p
      have hlt := F.next_length _ _ _ hnext
      rw [F.read_of_some hnext] at hr
      rcases List.mem_cons.mp hr with rfl | hr
      · exact F.next_valid _ _ _ hnext
      · exact ih rest (by omega) r hr

theorem read_encodeAll_append {rs : List R} (h : ∀ r ∈ rs, F.Valid r) (rest : Bytes) :
    F.read (F.encodeAll rs ++ rest) = rs ++ F.read rest := by
  induction rs with
  | nil => rfl
  | cons r rs ih =>
    rw [encodeAll_cons, List.append_assoc,
      F.read_of_some (F.next_encode r (h r List.mem_cons_self) _),
      ih fun r' hr' => h r' (List.mem_cons_of_mem _ hr')]
    rfl

theorem read_append {bytes : Bytes} (h : F.Whole bytes) (rest : Bytes) :
    F.read (bytes ++ rest) = F.read bytes ++ F.read rest := by
  have hread := F.read_encodeAll_append (F.valid_of_mem_read bytes) rest
  rwa [h] at hread

theorem fitting_isPrefix (n : ℕ) (rs : List R) : F.fitting n rs <+: rs := by
  induction rs generalizing n with
  | nil => exact List.nil_prefix
  | cons r rs ih =>
    rw [fitting]
    split_ifs
    · exact (List.prefix_cons_inj r).mpr (ih _)
    · exact List.nil_prefix

theorem read_take {rs : List R} (h : ∀ r ∈ rs, F.Valid r) (n : ℕ) :
    F.read ((F.encodeAll rs).take n) = F.fitting n rs := by
  induction rs generalizing n with
  | nil => simp [fitting]
  | cons r rs ih =>
    have hr := h r List.mem_cons_self
    rw [encodeAll_cons, fitting]
    split_ifs with hfit
    · rw [List.take_append, List.take_of_length_le hfit,
        F.read_of_some (F.next_encode r hr _), ih fun r' hr' => h r' (List.mem_cons_of_mem _ hr')]
    · have hlt : n < (F.encode r).length := by omega
      rw [List.take_append_of_le_length hlt.le, F.read_of_none (F.next_take r hr n hlt)]

theorem fitting_of_length_le {n : ℕ} {rs : List R} (h : (F.encodeAll rs).length ≤ n) :
    F.fitting n rs = rs := by
  induction rs generalizing n with
  | nil => rfl
  | cons r rs ih =>
    rw [encodeAll_cons, List.length_append] at h
    rw [fitting, if_pos (by omega), ih (by omega)]

end FrameFormat

end AegisDB
