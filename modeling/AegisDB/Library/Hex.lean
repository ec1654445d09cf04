import AegisDB.Library.PrefixCode

/-!
# Hexadecimal texts

Numbers of a fixed width written with hexadecimal digits, and the number of bytes of a text of ASCII
characters.
-/

namespace AegisDB

/-- The hexadecimal digits of a number, of a fixed width, the most significant one in front. -/
def hexChars : ℕ → ℕ → List Char
  | 0, _ => []
  | width + 1, n => Nat.digitChar (n / 16 ^ width % 16) :: hexChars width n

@[simp] theorem length_hexChars (width n : ℕ) : (hexChars width n).length = width := by
  induction width with
  | zero => rfl
  | succ width ih => rw [hexChars, List.length_cons, ih]

theorem val_digitChar_le (n : ℕ) : (Nat.digitChar (n % 16)).val ≤ 127 := by
  have hdigit : ∀ d < 16, (Nat.digitChar d).val ≤ 127 := by decide
  exact hdigit _ (Nat.mod_lt n (by decide))

theorem val_le_of_mem_hexChars {width n : ℕ} {c : Char} (h : c ∈ hexChars width n) :
    c.val ≤ 127 := by
  induction width with
  | zero => cases h
  | succ width ih =>
    rw [hexChars] at h
    rcases List.mem_cons.mp h with rfl | h
    · exact val_digitChar_le _
    · exact ih h

theorem bytesOf_ofList (cs : List Char) :
    bytesOf (String.ofList cs) = cs.flatMap String.utf8EncodeChar := by
  rw [bytesOf, String.toByteArray_ofList, List.utf8Encode, List.toList_data_toByteArray]

theorem length_bytesOf_ofList {cs : List Char} (h : ∀ c ∈ cs, c.val ≤ 127) :
    (bytesOf (String.ofList cs)).length = cs.length := by
  rw [bytesOf_ofList]
  induction cs with
  | nil => rfl
  | cons c cs ih =>
    rw [List.forall_mem_cons] at h
    rw [List.flatMap_cons, List.length_append, List.length_cons, ih h.2,
      String.length_utf8EncodeChar, Char.utf8Size_eq_one_iff.mpr h.1, Nat.add_comm]

end AegisDB
