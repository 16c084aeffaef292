import Mathlib.Data.List.Basic

/-! JSON values, and how a structure reads its fields from an object. -/

namespace ProgressiveReviewer.Library

inductive Json where
  | null
  | bool (value : Bool)
  | integer (value : Int)
  /-- A number with a fraction or an exponent, as written. -/
  | decimal (written : String)
  | text (value : String)
  | array (items : List Json)
  /-- The members in the order they are written; a name may be written twice. -/
  | object (members : List (String × Json))

namespace Json

def asText : Json → Option String
  | .text value => some value
  | _ => none

/-- A natural number below a bound. -/
def asBelow (bound : Nat) : Json → Option Nat
  | .integer (.ofNat value) => if value < bound then some value else none
  | _ => none

/-- The member a structure reads under any of its names; a field that is written twice
fails. -/
def field (names : List String) (members : List (String × Json)) : Option (Option Json) :=
  match members.filter fun member => decide (member.1 ∈ names) with
  | [] => some none
  | [member] => some (some member.2)
  | _ => none

/-- A field that must be there. -/
def required (names : List String) (members : List (String × Json)) : Option Json :=
  (field names members).bind id

/-- The member of a plain value, where the last one written counts. -/
def last (name : String) (members : List (String × Json)) : Option Json :=
  (members.reverse.find? fun member => member.1 = name).map Prod.snd

end Json

end ProgressiveReviewer.Library
