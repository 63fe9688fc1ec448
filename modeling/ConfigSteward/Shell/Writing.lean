import ConfigSteward.Shell.Formula
import ConfigSteward.Text.Utf8

/-! # What programs write

The output of the programs that write their arguments: with blanks between them, or in the places
that a format has for them.
-/
namespace ConfigSteward.Shell

def isOctalDigit (c : Char) : Bool := '0' ≤ c && c ≤ '7'

def octalValue (cs : List Char) : Nat := cs.foldl (fun n c => 8 * n + (c.toNat - 48)) 0

/-- The byte that a letter after a backslash stands for. -/
def escapedByte? : Char → Option UInt8
  | 'a' => some 7
  | 'b' => some 8
  | 'f' => some 12
  | 'n' => some 10
  | 'r' => some 13
  | 't' => some 9
  | 'v' => some 11
  | '\\' => some 92
  | _ => none

/-- The octal digits at the front, at most `most`. -/
def octalDigits (most : Nat) (cs : List Char) : List Char := (cs.take most).takeWhile isOctalDigit

/-- Write an argument in which backslashes escape; numbers follow a zero. The result tells whether
the output goes on after it. -/
def escapedArgument (cs : List Char) : Nat → Bytes × Bool
  | 0 => ([], true)
  | fuel + 1 =>
    match cs with
    | [] => ([], true)
    | '\\' :: 'c' :: _ => ([], false)
    | '\\' :: '0' :: r =>
      let digits := octalDigits 3 r
      let (rest, on) := escapedArgument (r.drop digits.length) fuel
      ((octalValue digits).toUInt8 :: rest, on)
    | '\\' :: c :: r =>
      let (rest, on) := escapedArgument r fuel
      match escapedByte? c with
      | some b => (b :: rest, on)
      | none => (Text.encodeString (String.ofList ['\\', c]) ++ rest, on)
    | c :: r =>
      let (rest, on) := escapedArgument r fuel
      (Text.encodeString (String.singleton c) ++ rest, on)

/-- Write arguments with blanks between them; the result tells whether the output goes on. -/
def escapedArguments : List String → Bytes × Bool
  | [] => ([], true)
  | [a] => escapedArgument a.toList (a.length + 1)
  | a :: as =>
    let (first, on) := escapedArgument a.toList (a.length + 1)
    if on then
      let (rest, on) := escapedArguments as
      (first ++ 32 :: rest, on)
    else (first, false)

/-- What the shell's own `echo` writes: it resolves escapes. -/
def builtinEcho (args : List String) : Bytes :=
  let (break?, args) := match args with
    | "-n" :: r => (false, r)
    | r => (true, r)
  let (bytes, on) := escapedArguments args
  if on && break? then bytes ++ [10] else bytes

/-- The options before the arguments of the program `echo`. -/
def isEchoOption (s : String) : Bool :=
  match s.toList with
  | '-' :: r => !r.isEmpty && r.all fun c => c = 'n' || c = 'e' || c = 'E'
  | _ => false

/-- What the program `echo` writes: escapes stay unless asked for. -/
def echo (args : List String) : Bytes :=
  let options := (args.takeWhile isEchoOption).flatMap String.toList
  let args := args.dropWhile isEchoOption
  let escapes := (options.filter fun c => c = 'e' || c = 'E').getLast? = some 'e'
  let (bytes, on) :=
    if escapes then escapedArguments args
    else (Text.encodeString (" ".intercalate args), true)
  if on && !options.contains 'n' then bytes ++ [10] else bytes

/-! ## Formats -/

/-- A place for an argument in a format. -/
structure Slot where
  left : Bool := false
  zeros : Bool := false
  width : Nat := 0
  precision : Option Nat := none
  kind : Char

/-- Read a slot after its percent sign. -/
def readSlot (cs : List Char) : Option (Slot × List Char) :=
  let flags := cs.takeWhile fun c => "-+ #0".toList.contains c
  let r := cs.drop flags.length
  let width := r.takeWhile Char.isDigit
  let r := r.drop width.length
  let (precision, r) := match r with
    | '.' :: r =>
      (some (decimalValue (r.takeWhile Char.isDigit)), r.dropWhile Char.isDigit)
    | r => (none, r)
  match r with
  | kind :: r =>
    some (⟨flags.contains '-', flags.contains '0', decimalValue width, precision, kind⟩, r)
  | [] => none

def padded (slot : Slot) (text : List Char) : List Char :=
  let missing := slot.width - text.length
  if slot.left then text ++ List.replicate missing ' '
  else if slot.zeros && slot.kind ≠ 's' && slot.kind ≠ 'c' then
    match text with
    | '-' :: r => '-' :: List.replicate missing '0' ++ r
    | _ => List.replicate missing '0' ++ text
  else List.replicate missing ' ' ++ text

def signed (base : Nat) (n : Int) : List Char :=
  if n < 0 then '-' :: Nat.toDigits base n.natAbs else Nat.toDigits base n.natAbs

/-- Write an argument in its slot; the result tells whether the output goes on. -/
def fillSlot (slot : Slot) (arg : String) : Bytes × Bool :=
  let write := fun cs => (Text.encodeString (String.ofList (padded slot cs)), true)
  let n := (wholeNumber? arg).getD 0
  match slot.kind with
  | 's' => write (match slot.precision with
    | some p => arg.toList.take p
    | none => arg.toList)
  | 'c' => if arg = "" then ([0], true) else write (arg.toList.take 1)
  | 'b' => escapedArgument arg.toList (arg.length + 1)
  | 'd' => write (signed 10 n)
  | 'i' => write (signed 10 n)
  | 'u' => write (signed 10 n)
  | 'o' => write (signed 8 n)
  | 'x' => write (signed 16 n)
  | 'X' => write ((signed 16 n).map Char.toUpper)
  | _ => ([], true)

/-- Write a format once. The result holds the output, the arguments that are left and whether the
output goes on. -/
def formatOnce (cs : List Char) (args : List String) : Nat → Bytes × List String × Bool
  | 0 => ([], args, true)
  | fuel + 1 =>
    match cs with
    | [] => ([], args, true)
    | '%' :: '%' :: r =>
      let (rest, args, on) := formatOnce r args fuel
      (37 :: rest, args, on)
    | '%' :: r =>
      match readSlot r with
      | none => ([], args, false)
      | some (slot, r) =>
        let (bytes, on) := fillSlot slot (args.headD "")
        if on then
          let (rest, args, on) := formatOnce r args.tail fuel
          (bytes ++ rest, args, on)
        else (bytes, args.tail, false)
    | '\\' :: c :: r =>
      if isOctalDigit c then
        let digits := octalDigits 3 (c :: r)
        let (rest, args, on) := formatOnce ((c :: r).drop digits.length) args fuel
        ((octalValue digits).toUInt8 :: rest, args, on)
      else
        let (rest, args, on) := formatOnce r args fuel
        match escapedByte? c with
        | some b => (b :: rest, args, on)
        | none => (Text.encodeString (String.ofList ['\\', c]) ++ rest, args, on)
    | c :: r =>
      let (rest, args, on) := formatOnce r args fuel
      (Text.encodeString (String.singleton c) ++ rest, args, on)

/-- Write a format again and again until no argument is left. -/
def formatAll (format : List Char) (args : List String) : Nat → Bytes
  | 0 => []
  | fuel + 1 =>
    let (bytes, left, on) := formatOnce format args (format.length + 1)
    if on && !left.isEmpty && left.length < args.length then bytes ++ formatAll format left fuel
    else bytes

def printf (format : String) (args : List String) : Bytes :=
  formatAll format.toList args (args.length + 1)

/-- The numbers from one to another, a line each. -/
def sequenceLines (first last : Int) : Bytes :=
  let count := (last - first + 1).toNat
  (List.range count).flatMap fun (i : Nat) => Text.encodeString (toString (first + i) ++ "\n")

/-- A time in billionths of a second: a decimal number of seconds, minutes, hours or days. `none` in
the inner place stands for a time without end. -/
def duration? (s : String) : Option (Option Nat) :=
  if s = "infinity" || s = "inf" then some none
  else
    let cs := s.toList
    let (body, unit) := match cs.getLast? with
      | some 's' => (cs.dropLast, 1)
      | some 'm' => (cs.dropLast, 60)
      | some 'h' => (cs.dropLast, 3600)
      | some 'd' => (cs.dropLast, 86400)
      | _ => (cs, 1)
    let whole := body.takeWhile Char.isDigit
    let r := body.dropWhile Char.isDigit
    let fraction := match r with
      | '.' :: r => r
      | _ => []
    let isPlain := r.isEmpty || r.head? = some '.'
    if isPlain && fraction.all Char.isDigit && !(whole.isEmpty && fraction.isEmpty) then
      let nine := (fraction ++ List.replicate 9 '0').take 9
      some (some ((decimalValue whole * 1000000000 + decimalValue nine) * unit))
    else none

end ConfigSteward.Shell
