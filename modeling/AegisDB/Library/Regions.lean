import Mathlib.Tactic

/-!
# Regions of a list

A part of a list is read at an offset, and overwritten by as many elements.  What is overwritten is
read back, and regions that are apart from it stay as they are.
-/

namespace AegisDB

variable {α : Type*}

def region (data : List α) (offset length : ℕ) : List α :=
  (data.drop offset).take length

def overwrite (data : List α) (offset : ℕ) (new : List α) : List α :=
  data.take offset ++ new ++ data.drop (offset + new.length)

def Apart (offset length offset' length' : ℕ) : Prop :=
  offset + length ≤ offset' ∨ offset' + length' ≤ offset

variable {data new : List α} {offset length offset' length' : ℕ}

theorem getElem?_region (i : ℕ) :
    (region data offset length)[i]? = if i < length then data[offset + i]? else none := by
  rw [region, List.getElem?_take]
  split_ifs
  · rw [List.getElem?_drop]
  · rfl

theorem length_overwrite (h : offset + new.length ≤ data.length) :
    (overwrite data offset new).length = data.length := by
  rw [overwrite, List.length_append, List.length_append, List.length_take, List.length_drop]
  omega

theorem getElem?_overwrite (h : offset + new.length ≤ data.length) (i : ℕ) :
    (overwrite data offset new)[i]? =
      if offset ≤ i ∧ i < offset + new.length then new[i - offset]? else data[i]? := by
  have hlength : (data.take offset).length = offset := by
    rw [List.length_take]
    omega
  rw [overwrite, List.append_assoc]
  by_cases hbefore : i < offset
  · rw [List.getElem?_append_left (by omega), if_neg (by omega), List.getElem?_take_of_lt hbefore]
  · rw [List.getElem?_append_right (by omega), hlength]
    by_cases hin : i < offset + new.length
    · rw [List.getElem?_append_left (by omega), if_pos (by omega)]
    · rw [List.getElem?_append_right (by omega), List.getElem?_drop, if_neg (by omega)]
      congr 1
      omega

theorem region_overwrite (h : offset + new.length ≤ data.length) :
    region (overwrite data offset new) offset new.length = new := by
  refine List.ext_getElem? fun i => ?_
  rw [getElem?_region, getElem?_overwrite h]
  by_cases hi : i < new.length
  · rw [if_pos hi, if_pos (by omega), Nat.add_sub_cancel_left]
  · rw [if_neg hi, List.getElem?_eq_none (Nat.not_lt.mp hi)]

theorem region_overwrite_of_apart (h : offset + new.length ≤ data.length)
    (hapart : Apart offset' length' offset new.length) :
    region (overwrite data offset new) offset' length' = region data offset' length' := by
  refine List.ext_getElem? fun i => ?_
  rw [getElem?_region, getElem?_region]
  split_ifs with hi
  · rw [getElem?_overwrite h, if_neg]
    rcases hapart with h | h <;> omega
  · rfl

end AegisDB
