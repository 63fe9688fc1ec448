/-! # Calendar readings to the second

A reading of the clock is a date and a time of day without zone. `number` writes its fields one
after the other in decimal, so the order of readings is the order of their numbers. Days are counted
from the first of January of the year 1, which is day 1.
-/
namespace ConfigSteward

structure Civil where
  year : Nat
  month : Nat
  day : Nat
  hour : Nat
  minute : Nat
  second : Nat
  deriving DecidableEq, Repr

namespace Civil

def isLeap (year : Nat) : Bool := year % 4 = 0 && (year % 100 ≠ 0 || year % 400 = 0)

def daysInMonth (year month : Nat) : Nat :=
  if month = 2 then (if isLeap year then 29 else 28)
  else if month = 4 || month = 6 || month = 9 || month = 11 then 30
  else 31

/-- The fields name a second of the years 1 to 9999. -/
def Valid (c : Civil) : Prop :=
  1 ≤ c.year ∧ c.year ≤ 9999 ∧ 1 ≤ c.month ∧ c.month ≤ 12 ∧ 1 ≤ c.day ∧
    c.day ≤ daysInMonth c.year c.month ∧ c.hour ≤ 23 ∧ c.minute ≤ 59 ∧ c.second ≤ 59

instance (c : Civil) : Decidable c.Valid := inferInstanceAs (Decidable (_ ∧ _))

/-- The fields in decimal, two places each after the year. -/
def number (c : Civil) : Nat :=
  ((((c.year * 100 + c.month) * 100 + c.day) * 100 + c.hour) * 100 + c.minute) * 100 + c.second

/-- The later of two readings, the first one if they agree. -/
def latest (a b : Civil) : Civil := if a.number < b.number then b else a

theorem number_latest (a b : Civil) : (latest a b).number = max a.number b.number := by
  unfold latest
  split <;> omega

/-- The days of the years before `year`. -/
def daysBeforeYear (year : Nat) : Nat :=
  let y := year - 1
  y * 365 + y / 4 - y / 100 + y / 400

def daysBeforeMonth (year : Nat) : Nat → Nat
  | 0 => 0
  | 1 => 0
  | month + 1 => daysBeforeMonth year month + daysInMonth year month

/-- The day count of a date. -/
def dayNumber (year month day : Nat) : Nat :=
  daysBeforeYear year + daysBeforeMonth year month + day

/-- The month and day of the day `rest` of a year, counted from zero, where the months before
`month` are already passed. -/
def monthAndDay (year rest month : Nat) : Nat → Nat × Nat
  | 0 => (month, rest + 1)
  | tries + 1 =>
    if rest < daysInMonth year month then (month, rest + 1)
    else monthAndDay year (rest - daysInMonth year month) (month + 1) tries

/-- The date of a day count, which is positive. -/
def ofDayNumber (n : Nat) : Nat × Nat × Nat :=
  let n := n - 1
  let n400 := n / 146097
  let n := n % 146097
  let n100 := min (n / 36524) 3
  let n := n - n100 * 36524
  let n4 := n / 1461
  let n := n % 1461
  let n1 := min (n / 365) 3
  let year := n400 * 400 + n100 * 100 + n4 * 4 + n1 + 1
  let (month, day) := monthAndDay year (n - n1 * 365) 1 11
  (year, month, day)

/-- Seconds since the first instant of the year 1. -/
def toSeconds (c : Civil) : Nat :=
  ((dayNumber c.year c.month c.day - 1) * 24 + c.hour) * 3600 + c.minute * 60 + c.second

def ofSeconds (n : Nat) : Civil :=
  let (year, month, day) := ofDayNumber (n / 86400 + 1)
  ⟨year, month, day, n % 86400 / 3600, n % 3600 / 60, n % 60⟩

/-- The seconds from the year 1 to the start of 1970. -/
def unixEpoch : Nat := 62135596800

/-- The first second after the year 9999. -/
def endOfTime : Nat := 315537897600

/-- A number in `width` digits, zeros in front. -/
def padded (width n : Nat) : String :=
  let digits := Nat.toDigits 10 n
  String.ofList (List.replicate (width - digits.length) '0' ++ digits)

/-- A reading as `2024-05-01T12:00:00`. -/
def iso (c : Civil) : String :=
  padded 4 c.year ++ "-" ++ padded 2 c.month ++ "-" ++ padded 2 c.day ++ "T" ++ padded 2 c.hour
    ++ ":" ++ padded 2 c.minute ++ ":" ++ padded 2 c.second

/-- The digits of a number of exactly `width` places at the front of a text. -/
def readPlaces (width : Nat) (cs : List Char) : Option (Nat × List Char) :=
  let digits := cs.take width
  if digits.length = width && digits.all Char.isDigit then
    some (digits.foldl (fun n c => 10 * n + (c.toNat - 48)) 0, cs.drop width)
  else none

def readMark (mark : Char) : List Char → Option (List Char)
  | c :: r => if c = mark then some r else none
  | [] => none

/-- Millionths of a second written after a point; later places are cut off. -/
def readMicros (cs : List Char) : Option Nat :=
  match cs with
  | [] => some 0
  | '.' :: digits =>
    if digits.isEmpty || !digits.all Char.isDigit then none
    else
      let six := (digits.take 6) ++ List.replicate (6 - digits.length) '0'
      some (six.foldl (fun n c => 10 * n + (c.toNat - 48)) 0)
  | _ => none

/-- Read a date with an optional time, the seconds and their fraction optional too. The result is
the reading and the millionths after it. -/
def ofIso? (s : String) : Option (Civil × Nat) := do
  let (year, r) ← readPlaces 4 s.toList
  let r ← readMark '-' r
  let (month, r) ← readPlaces 2 r
  let r ← readMark '-' r
  let (day, r) ← readPlaces 2 r
  let valid := fun (c : Civil) (micros : Nat) => if c.Valid then some (c, micros) else none
  match r with
  | [] => valid ⟨year, month, day, 0, 0, 0⟩ 0
  | _ :: r =>
    let (hour, r) ← readPlaces 2 r
    match r with
    | [] => valid ⟨year, month, day, hour, 0, 0⟩ 0
    | _ =>
      let r ← readMark ':' r
      let (minute, r) ← readPlaces 2 r
      match r with
      | [] => valid ⟨year, month, day, hour, minute, 0⟩ 0
      | _ =>
        let r ← readMark ':' r
        let (second, r) ← readPlaces 2 r
        let micros ← readMicros r
        valid ⟨year, month, day, hour, minute, second⟩ micros

end Civil
end ConfigSteward
