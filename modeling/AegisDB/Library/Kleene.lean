import Mathlib.Tactic

/-!
# Kleene's three truth values

A statement is true, false or unknown.  A connective is known as soon as its known operands decide
it.
-/

namespace AegisDB

/-- A truth value; the missing one is the unknown. -/
abbrev Kleene := Option Bool

namespace Kleene

def not (a : Kleene) : Kleene :=
  a.map Bool.not

/-- A conjunction is false as soon as one part is. -/
def and : Kleene → Kleene → Kleene
  | some false, _ => some false
  | _, some false => some false
  | some true, some true => some true
  | _, _ => none

/-- A disjunction is true as soon as one part is. -/
def or : Kleene → Kleene → Kleene
  | some true, _ => some true
  | _, some true => some true
  | some false, some false => some false
  | _, _ => none

def negateIf (negated : Bool) (a : Kleene) : Kleene :=
  if negated then a.not else a

@[simp] theorem not_some (a : Bool) : not (some a) = some !a := rfl

@[simp] theorem and_some (a b : Bool) : and (some a) (some b) = some (a && b) := by
  cases a <;> cases b <;> rfl

@[simp] theorem or_some (a b : Bool) : or (some a) (some b) = some (a || b) := by
  cases a <;> cases b <;> rfl

@[simp] theorem negateIf_none (negated : Bool) : negateIf negated none = none := by
  cases negated <;> rfl

@[simp] theorem negateIf_some (negated a : Bool) :
    negateIf negated (some a) = some (if negated then !a else a) := by
  cases negated <;> rfl

theorem negateIf_injective (negated : Bool) : Function.Injective (negateIf negated) := by
  intro a b h
  cases negated with
  | false => exact h
  | true => rcases a with _ | _ | _ <;> rcases b with _ | _ | _ <;> simp_all [negateIf, not]

end Kleene

end AegisDB
