import ConfigSteward.Shell.Lexeme

/-! # Arithmetic in scripts

A formula is made of whole numbers, names and operators; operators that bind more tightly have the
greater rank.
-/
namespace ConfigSteward.Shell

inductive Term where
  | value (n : Int)
  | operator (s : String)
  deriving DecidableEq, Repr

/-- The operators between two values, each with its rank. -/
def ranks : List (String × Nat) := [
  ("||", 1), ("&&", 2), ("|", 3), ("^", 4), ("&", 5), ("==", 6), ("!=", 6), ("<=", 7), (">=", 7),
  ("<<", 8), (">>", 8), ("<", 7), (">", 7), ("+", 9), ("-", 9), ("*", 10), ("/", 10), ("%", 10),
  ("(", 0), (")", 0), ("!", 0), ("~", 0)]

def decimalValue (cs : List Char) : Nat := cs.foldl (fun n c => 10 * n + (c.toNat - 48)) 0

/-- A whole number with an optional sign. -/
def wholeNumber? (s : String) : Option Int :=
  let (negative, digits) := match s.toList with
    | '-' :: r => (true, r)
    | '+' :: r => (false, r)
    | r => (false, r)
  if digits.isEmpty || !digits.all Char.isDigit then none
  else some (if negative then -(decimalValue digits : Int) else decimalValue digits)

/-- The terms of a formula, where `value` looks names up. -/
def terms (value : String → String) (cs : List Char) : Nat → Option (List Term)
  | 0 => none
  | fuel + 1 =>
    match cs with
    | [] => some []
    | c :: r =>
      if c.isWhitespace || c = '$' then terms value r fuel
      else if c.isDigit then
        (terms value (cs.dropWhile Char.isDigit) fuel).map
          (.value (decimalValue (cs.takeWhile Char.isDigit)) :: ·)
      else if isNameStart c then
        (terms value (cs.dropWhile isNameChar) fuel).map
          (.value ((wholeNumber? (value (String.ofList (cs.takeWhile isNameChar)))).getD 0) :: ·)
      else
        match ranks.find? fun e => e.1.toList.isPrefixOf cs with
        | some e => (terms value (cs.drop e.1.length) fuel).map (.operator e.1 :: ·)
        | none => none

def ofBool (b : Bool) : Int64 := if b then 1 else 0

/-- Combine two words of 64 bits; dividing by zero gives nothing. -/
def combineWords (operator : String) (a b : Int64) : Option Int64 :=
  match operator with
  | "||" => some (ofBool (a ≠ 0 || b ≠ 0))
  | "&&" => some (ofBool (a ≠ 0 && b ≠ 0))
  | "==" => some (ofBool (a = b))
  | "!=" => some (ofBool (a ≠ b))
  | "<=" => some (ofBool (a ≤ b))
  | ">=" => some (ofBool (b ≤ a))
  | "<" => some (ofBool (a < b))
  | ">" => some (ofBool (b < a))
  | "+" => some (a + b)
  | "-" => some (a - b)
  | "*" => some (a * b)
  | "/" => if b = 0 then none else some (a / b)
  | "%" => if b = 0 then none else some (a % b)
  | "<<" => some (a <<< b)
  | ">>" => some (a >>> b)
  | "|" => some (a ||| b)
  | "&" => some (a &&& b)
  | "^" => some (a ^^^ b)
  | _ => none

/-- Combine two values. -/
def combine (operator : String) (a b : Int) : Option Int :=
  (combineWords operator (Int64.ofInt a) (Int64.ofInt b)).map Int64.toInt

mutual

/-- Evaluate a single value with the operators before it. -/
def single (ts : List Term) : Nat → Option (Int × List Term)
  | 0 => none
  | fuel + 1 =>
    match ts with
    | .value n :: r => some (n, r)
    | .operator "-" :: r => (single r fuel).map fun p => (-p.1, p.2)
    | .operator "+" :: r => single r fuel
    | .operator "!" :: r => (single r fuel).map fun p => (if p.1 = 0 then 1 else 0, p.2)
    | .operator "~" :: r => (single r fuel).map fun p => (-p.1 - 1, p.2)
    | .operator "(" :: r =>
      match joined 1 r fuel with
      | some (n, .operator ")" :: r) => some (n, r)
      | _ => none
    | _ => none

/-- Evaluate values joined by operators of at least a rank. -/
def joined (rank : Nat) (ts : List Term) : Nat → Option (Int × List Term)
  | 0 => none
  | fuel + 1 =>
    match single ts fuel with
    | some (n, r) => joinRest rank n r fuel
    | none => none

def joinRest (rank : Nat) (n : Int) (ts : List Term) : Nat → Option (Int × List Term)
  | 0 => none
  | fuel + 1 =>
    match ts with
    | .operator s :: r =>
      match ranks.find? (·.1 = s) with
      | some (_, own) =>
        if own = 0 || own < rank then some (n, ts)
        else
          match joined (own + 1) r fuel with
          | some (m, r) => (combine s n m).bind fun n => joinRest rank n r fuel
          | none => none
      | none => none
    | _ => some (n, ts)

end

/-- The value of a formula; an empty one is zero. -/
def evaluate (value : String → String) (formula : String) : Option Int :=
  match terms value formula.toList (formula.length + 1) with
  | none => none
  | some [] => some 0
  | some ts =>
    match joined 1 ts (4 * ts.length + 4) with
    | some (n, []) => some n
    | _ => none

end ConfigSteward.Shell
