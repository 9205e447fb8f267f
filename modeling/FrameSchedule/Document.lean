import Std.Data.String.ToNat

/-!
# Documents

The tree of a structured text: nothing, truth values, decimal numbers, strings, lists
and objects.  A number is kept as `digits · 10 ^ -places`, so that `2` and `2.0` stay
apart: only the first is an integer.
-/

namespace FrameSchedule

/-- A structured value. -/
inductive Document where
  | null
  | bool (value : Bool)
  | number (digits : Int) (places : Nat)
  | text (value : String)
  | list (items : List Document)
  | object (fields : List (String × Document))
  deriving Inhabited

namespace Document

variable {α : Type}

/-- The document of a word. -/
def ofWord (w : UInt32) : Document :=
  .number w.toNat 0

/-- A word is a number without places that is not negative and below the word size. -/
def word? : Document → Option UInt32
  | .number digits 0 =>
    if 0 ≤ digits ∧ digits.toNat < UInt32.size then some (UInt32.ofNat digits.toNat) else none
  | _ => none

def bool? : Document → Option Bool
  | .bool value => some value
  | _ => none

def fields? : Document → Option (List (String × Document))
  | .object fields => some fields
  | _ => none

/-- Read a field of an object, which has a default if the field is missing. -/
def fieldD (name : String) (read : Document → Option α) (default : α)
    (fields : List (String × Document)) : Option α :=
  match fields.lookup name with
  | none => some default
  | some d => read d

/-- The word that a key spells: its decimal digits, with no sign and no leading zero. -/
def wordOfKey? (key : String) : Option UInt32 := do
  let n ← key.toNat?
  if n < UInt32.size ∧ toString n = key then some (UInt32.ofNat n) else none

theorem word?_ofWord (w : UInt32) : (ofWord w).word? = some w := by
  have := w.toNat_lt
  simp only [ofWord, word?, Int.toNat_natCast, UInt32.ofNat_toNat]
  rw [if_pos ⟨by omega, this⟩]

theorem wordOfKey?_toString (w : UInt32) : wordOfKey? (toString w.toNat) = some w := by
  have := w.toNat_lt
  simp only [wordOfKey?, Nat.toString_eq_repr, Nat.toNat?_repr, bind, Option.bind_some]
  rw [if_pos ⟨this, trivial⟩, UInt32.ofNat_toNat]

end Document

end FrameSchedule
