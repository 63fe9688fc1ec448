import ConfigSteward.Number.Binary64
import ConfigSteward.Text.Utf8

/-! # Values in a settings document

`same` is the equality under which the keys of one mapping have to differ: numbers and truth values
are equal when they denote the same number.
-/
namespace ConfigSteward

inductive Value where
  | null
  | bool (b : Bool)
  | int (n : Int)
  | float (x : Binary64)
  | text (s : String)
  | bytes (bs : Bytes)
  /-- A date or a date with a time, as the numbers that it consists of. -/
  | moment (parts : List Int)
  | list (items : List Value)
  | mapping (entries : List (Value × Value))
  | set (items : List Value)
  deriving Inhabited, Repr

namespace Value

/-- The number that a value denotes, if it denotes a whole one. -/
def wholeNumber? : Value → Option Int
  | bool b => some (if b then 1 else 0)
  | int n => some n
  | float x => x.toInt?
  | _ => none

mutual

/-- Whether two values are equal as keys. -/
def same : Value → Value → Bool
  | null, null => true
  | text a, text b => a = b
  | bytes a, bytes b => a = b
  | moment a, moment b => a = b
  | list a, list b => sameAll a b
  | float a, float b =>
    match a.toInt?, b.toInt? with
    | some m, some n => m = n
    | _, _ => a ≠ .nan && a = b
  | a, b =>
    match wholeNumber? a, wholeNumber? b with
    | some m, some n => m = n
    | _, _ => false

def sameAll : List Value → List Value → Bool
  | [], [] => true
  | a :: as, b :: bs => same a b && sameAll as bs
  | _, _ => false

end

mutual

/-- Whether a value can be a key: it holds no mapping and no set. -/
def isKey : Value → Bool
  | mapping _ => false
  | set _ => false
  | list items => areKeys items
  | _ => true

def areKeys : List Value → Bool
  | [] => true
  | v :: vs => isKey v && areKeys vs

end

end Value
end ConfigSteward
