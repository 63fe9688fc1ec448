import ConfigSteward.Text.Digit
import ConfigSteward.Text.Quoted
import ConfigSteward.Time.Civil

/-! # Time stamps in names

A stamp is a reading written as eight digits, an underscore and six digits. Years below 1000 take
fewer digits when written. Reading a stamp back goes field by field and gives the cause when the
digits name no second.
-/
namespace ConfigSteward.Stamp

/-- The digits of a number below 100, two places. -/
def twoPlaces (n : Nat) : List Char := [Nat.digitChar (n / 10), Nat.digitChar (n % 10)]

def writeChars (c : Civil) : List Char :=
  Nat.toDigits 10 c.year ++ twoPlaces c.month ++ twoPlaces c.day ++ '_' :: twoPlaces c.hour
    ++ twoPlaces c.minute ++ twoPlaces c.second

def write (c : Civil) : String := String.ofList (writeChars c)

/-- Why digits in the form of a stamp name no second. -/
inductive Fault where
  | noMatch (stamp : String)
  | leftOver (rest : String)
  | yearZero
  | dayOutOfMonth
  | secondOutOfMinute
  | yearOutOfRange (year : Int)
  deriving DecidableEq, Repr

def Fault.message : Fault → String
  | noMatch stamp => s!"time data {Text.quoted stamp} does not match format '%Y%m%d_%H%M%S'"
  | leftOver rest => "unconverted data remains: " ++ rest
  | yearZero => "year 0 is out of range"
  | dayOutOfMonth => "day is out of range for month"
  | secondOutOfMinute => "second must be in 0..59"
  | yearOutOfRange year => s!"year {year} is out of range"

/-- A month: `01` to `12` in ASCII digits. -/
def isMonth (a b : Char) : Bool :=
  (a = '1' && '0' ≤ b && b ≤ '2') || (a = '0' && '1' ≤ b && b ≤ '9')

/-- A day: `01` to `31`, where the digit after a 1 or a 2 may be of any script. -/
def isDay (a b : Char) : Bool :=
  (a = '3' && (b = '0' || b = '1')) || ((a = '1' || a = '2') && Text.isDigit b)
    || (a = '0' && '1' ≤ b && b ≤ '9')

/-- Read one or two digits: two where `pair` accepts them, else one. -/
def readField (pair : Char → Char → Bool) : List Char → Option (Nat × List Char)
  | a :: b :: r =>
    if pair a b then some (Text.digitsValue [a, b], r)
    else if Text.isDigit a then some (Text.digitsValue [a], b :: r)
    else none
  | [a] => if Text.isDigit a then some (Text.digitsValue [a], []) else none
  | [] => none

def isHour (a b : Char) : Bool :=
  (a = '2' && '0' ≤ b && b ≤ '3') || ((a = '0' || a = '1') && Text.isDigit b)

def isMinute (a b : Char) : Bool := '0' ≤ a && a ≤ '5' && Text.isDigit b

/-- Seconds reach 61 in form, for leap seconds. -/
def isSecond (a b : Char) : Bool := (a = '6' && (b = '0' || b = '1')) || isMinute a b

/-- Read hour, minute and second; what remains is left over. -/
def readTime (cs : List Char) : Option (Nat × Nat × Nat × List Char) := do
  let (hour, r) ← readField isHour cs
  let (minute, r) ← readField isMinute r
  let (second, r) ← readField isSecond r
  return (hour, minute, second, r)

/-- Whether a date exists in the calendar. -/
def checkDate (year month day : Nat) : Except Fault Unit :=
  if year = 0 then .error .yearZero
  else if day = 0 || day > Civil.daysInMonth year month then .error .dayOutOfMonth
  else .ok ()

def readChars (cs : List Char) : Except Fault Civil :=
  let noMatch : Except Fault Civil := .error (.noMatch (String.ofList cs))
  match cs with
  | y₁ :: y₂ :: y₃ :: y₄ :: m₁ :: m₂ :: d₁ :: d₂ :: '_' :: time =>
    if [y₁, y₂, y₃, y₄].all Text.isDigit && isMonth m₁ m₂ && isDay d₁ d₂ then
      match readTime time with
      | none => noMatch
      | some (hour, minute, second, rest) =>
        if rest.isEmpty then
          let year := Text.digitsValue [y₁, y₂, y₃, y₄]
          let month := Text.digitsValue [m₁, m₂]
          let day := Text.digitsValue [d₁, d₂]
          match checkDate year month day with
          | .error fault => .error fault
          | .ok () =>
            if second > 59 then .error .secondOutOfMinute
            else .ok ⟨year, month, day, hour, minute, second⟩
        else .error (.leftOver (String.ofList rest))
    else noMatch
  | _ => noMatch

def read (s : String) : Except Fault Civil := readChars s.toList

/-- The year of a number of seconds since the first instant of the year 1, years before it counted
on backwards from 0. -/
def yearOf (seconds : Int) : Int :=
  let cycle : Int := 146097 * 86400
  let cycles := Int.fdiv seconds cycle
  (Civil.ofSeconds (seconds - cycles * cycle).toNat).year + 400 * cycles

/-- The reading of a time given in millionths of a second since the start of 1970, cut to the
second. The day before has to have a reading too. -/
def ofUnixMicros (micros : Int) : Except Fault Civil :=
  let seconds := Int.fdiv micros 1000000 + Civil.unixEpoch
  if seconds < 0 then .error (.yearOutOfRange (yearOf seconds))
  else if seconds < 86400 then .error (.yearOutOfRange 0)
  else if seconds ≥ Civil.endOfTime then
    .error (.yearOutOfRange (Civil.ofSeconds seconds.toNat).year)
  else .ok (Civil.ofSeconds seconds.toNat)

end ConfigSteward.Stamp
