import ConfigSteward.Proofs.Time.Stamps
import Mathlib.Data.Nat.Init
import Mathlib.Tactic.ByContra
import Mathlib.Tactic.SplitIfs

/-!
# The order of readings

Days and dates of the calendar are counted into each other, so of two seconds the later one has the
reading with the greater number.
-/
namespace ConfigSteward

namespace Civil

variable {a b : Civil} {year year' month month' day day' rest tries n : Nat}

private theorem daysBeforeMonth_succ (year : Nat) (h : 1 ≤ month) :
    daysBeforeMonth year (month + 1) = daysBeforeMonth year month + daysInMonth year month := by
  cases month with
  | zero => omega
  | succ month => rfl

private theorem daysBeforeMonth_mono (year : Nat) (h : 1 ≤ month) (hle : month ≤ month') :
    daysBeforeMonth year month ≤ daysBeforeMonth year month' := by
  induction month', hle using Nat.le_induction with
  | base => exact Nat.le_refl _
  | succ month' hle ih =>
    rw [daysBeforeMonth_succ year (by omega)]
    omega

private theorem daysBeforeMonth_year (year : Nat) :
    daysBeforeMonth year 13 = if isLeap year then 366 else 365 := by
  cases h : isLeap year <;> simp [daysBeforeMonth, daysInMonth, h]

private theorem daysBeforeYear_succ (h : 1 ≤ year) :
    daysBeforeYear (year + 1) = daysBeforeYear year + if isLeap year then 366 else 365 := by
  have hfour : year / 4 = (year - 1) / 4 + if year % 4 = 0 then 1 else 0 := by split <;> omega
  have hhundred : year / 100 = (year - 1) / 100 + if year % 100 = 0 then 1 else 0 := by
    split <;> omega
  have hcycle : year / 400 = (year - 1) / 400 + if year % 400 = 0 then 1 else 0 := by
    split <;> omega
  have hle : (year - 1) / 100 ≤ (year - 1) / 4 := by omega
  simp only [daysBeforeYear, Nat.add_sub_cancel, hfour, hhundred, hcycle, isLeap_iff]
  generalize (year - 1) / 4 = fours, (year - 1) / 100 = hundreds, (year - 1) / 400 = cycles at *
  clear hfour hhundred hcycle
  split_ifs <;> omega

private theorem daysBeforeYear_mono (h : 1 ≤ year) (hle : year ≤ year') :
    daysBeforeYear year ≤ daysBeforeYear year' := by
  induction year', hle using Nat.le_induction with
  | base => exact Nat.le_refl _
  | succ year' hle ih =>
    rw [daysBeforeYear_succ (by omega)]
    omega

/-! ### Days of the calendar -/

/-- Passing from month to month loses no day. -/
theorem monthAndDay_counts (h : 1 ≤ month) :
    daysBeforeMonth year (monthAndDay year rest month tries).1
      + (monthAndDay year rest month tries).2 = daysBeforeMonth year month + rest + 1 := by
  induction tries generalizing rest month with
  | zero => simp only [monthAndDay]; omega
  | succ tries ih =>
    rw [monthAndDay]
    split
    · simp only; omega
    · rw [ih (by omega), daysBeforeMonth_succ year h]
      omega

/-- The days of whole cycles of 400, 100 and 4 years and of the years after them. -/
theorem daysBeforeYear_cycles {n400 n100 n4 n1 : Nat} (h100 : n100 ≤ 3) (h4 : n4 ≤ 24)
    (h1 : n1 ≤ 3) : daysBeforeYear (n400 * 400 + n100 * 100 + n4 * 4 + n1 + 1)
      = n400 * 146097 + n100 * 36524 + n4 * 1461 + n1 * 365 := by
  simp only [daysBeforeYear, Nat.add_sub_cancel]
  omega

/-- Counting the days up to the date of a day gives the day. -/
theorem dayNumber_ofDayNumber (n : Nat) :
    dayNumber (ofDayNumber (n + 1)).1 (ofDayNumber (n + 1)).2.1 (ofDayNumber (n + 1)).2.2
      = n + 1 := by
  simp only [dayNumber, ofDayNumber, Nat.add_sub_cancel, Nat.add_assoc (daysBeforeYear _)]
  rw [monthAndDay_counts (Nat.le_refl 1), daysBeforeYear_cycles (by omega) (by omega) (by omega)]
  simp only [daysBeforeMonth]
  omega

/-- The date of an earlier day is counted less far. -/
theorem dayNumber_lt (hyear : 1 ≤ year) (hmonth : 1 ≤ month ∧ month ≤ 12)
    (hday : day ≤ daysInMonth year month) (hmonth' : 1 ≤ month') (hday' : 1 ≤ day')
    (h : year < year' ∨ year = year' ∧ (month < month' ∨ month = month' ∧ day < day')) :
    dayNumber year month day < dayNumber year' month' day' := by
  unfold dayNumber
  have hthrough : daysBeforeMonth year month + day ≤ daysBeforeMonth year (month + 1) := by
    rw [daysBeforeMonth_succ year hmonth.1]
    omega
  rcases h with hlt | ⟨rfl, hlt | ⟨rfl, hlt⟩⟩
  · have hend : daysBeforeMonth year (month + 1) ≤ daysBeforeMonth year 13 :=
      daysBeforeMonth_mono year (by omega) (by omega)
    have hnext : daysBeforeYear (year + 1) ≤ daysBeforeYear year' :=
      daysBeforeYear_mono (by omega) hlt
    rw [daysBeforeMonth_year] at hend
    rw [daysBeforeYear_succ hyear] at hnext
    omega
  · have hnext : daysBeforeMonth year (month + 1) ≤ daysBeforeMonth year month' :=
      daysBeforeMonth_mono year (by omega) hlt
    omega
  · omega

/-! ### Seconds of the calendar -/

/-- The fields name a second of some year. -/
structure Dated (c : Civil) : Prop where
  year : 1 ≤ c.year
  month : 1 ≤ c.month ∧ c.month ≤ 12
  day : 1 ≤ c.day ∧ c.day ≤ daysInMonth c.year c.month
  hour : c.hour ≤ 23
  minute : c.minute ≤ 59
  second : c.second ≤ 59

theorem Valid.dated (h : a.Valid) : a.Dated := by
  obtain ⟨hyear, -, hmonth, hmonth', hday, hday', hhour, hminute, hsecond⟩ := h
  exact ⟨hyear, ⟨hmonth, hmonth'⟩, ⟨hday, hday'⟩, hhour, hminute, hsecond⟩

theorem Dated.placed (h : a.Dated) : a.Placed := by
  have hdays := (daysInMonth_bounds a.year a.month).2
  obtain ⟨-, hmonth, hday, hhour, hminute, hsecond⟩ := h
  exact ⟨by omega, by omega, by omega, by omega, by omega⟩

theorem ofSeconds_dated (n : Nat) : (ofSeconds n).Dated := by
  obtain ⟨hyear, hmonth, hmonth', hday, hday'⟩ := ofDayNumber_valid (n / 86400 + 1)
  refine ⟨hyear, ⟨hmonth, hmonth'⟩, ⟨hday, hday'⟩, ?_, ?_, ?_⟩
  · change n % 86400 / 3600 ≤ 23
    omega
  · change n % 3600 / 60 ≤ 59
    omega
  · change n % 60 ≤ 59
    omega

private theorem toSeconds_ofSeconds (n : Nat) : (ofSeconds n).toSeconds = n := by
  have hday := dayNumber_ofDayNumber (n / 86400)
  simp only [toSeconds, ofSeconds]
  rw [hday]
  omega

/-- The seconds of the calendar are in the order of their numbers. -/
theorem toSeconds_lt (ha : a.Dated) (hb : b.Dated) (h : a.number < b.number) :
    a.toSeconds < b.toSeconds := by
  obtain ⟨hyear, hmonth, hday, hhour, hminute, hsecond⟩ := ha
  obtain ⟨-, hmonth', hday', hhour', hminute', hsecond'⟩ := hb
  have hdays := (daysInMonth_bounds a.year a.month).2
  have hdays' := (daysInMonth_bounds b.year b.month).2
  have hpos : 1 ≤ dayNumber a.year a.month a.day := by
    rw [dayNumber]
    omega
  unfold number at h
  unfold toSeconds
  by_cases hdate : a.year < b.year ∨
      a.year = b.year ∧ (a.month < b.month ∨ a.month = b.month ∧ a.day < b.day)
  · have hlt := dayNumber_lt hyear hmonth hday.2 hmonth'.1 hday'.1 hdate
    omega
  · obtain ⟨hy, hm, hd⟩ : a.year = b.year ∧ a.month = b.month ∧ a.day = b.day := by omega
    rw [← hy, ← hm, ← hd]
    omega

/-- A clock that does not go back gives readings that do not. -/
theorem ofSeconds_mono {m : Nat} (h : m ≤ n) : (ofSeconds m).number ≤ (ofSeconds n).number := by
  by_contra hlt
  have hback := toSeconds_lt (ofSeconds_dated n) (ofSeconds_dated m) (Nat.not_le.mp hlt)
  rw [toSeconds_ofSeconds, toSeconds_ofSeconds] at hback
  omega

/-- Readings that fit a stamp are told apart by their numbers. -/
theorem Stampable.eq_of_number (ha : a.Stampable) (hb : b.Stampable) (h : a.number = b.number) :
    a = b := by
  obtain ⟨year, month, day, hour, minute, second⟩ := a
  obtain ⟨year', month', day', hour', minute', second'⟩ := b
  obtain ⟨-, hmonth, hday, hhour, hminute, hsecond⟩ := ha
  obtain ⟨-, hmonth', hday', hhour', hminute', hsecond'⟩ := hb
  simp only [number] at *
  simp only [mk.injEq]
  omega

/-- Seconds of the calendar are told apart by their numbers. -/
theorem Dated.eq_of_number (ha : a.Dated) (hb : b.Dated) (h : a.number = b.number) : a = b := by
  obtain ⟨year, month, day, hour, minute, second⟩ := a
  obtain ⟨year', month', day', hour', minute', second'⟩ := b
  obtain ⟨-, hmonth, hday, hhour, hminute, hsecond⟩ := ha
  obtain ⟨-, hmonth', hday', hhour', hminute', hsecond'⟩ := hb
  have hdays := (daysInMonth_bounds year month).2
  have hdays' := (daysInMonth_bounds year' month').2
  simp only [number] at *
  simp only [mk.injEq]
  omega

/-- The earlier of two seconds has the smaller number. -/
theorem Dated.toSeconds_lt_iff (ha : a.Dated) (hb : b.Dated) :
    a.toSeconds < b.toSeconds ↔ a.number < b.number := by
  refine ⟨fun h => ?_, toSeconds_lt ha hb⟩
  rcases Nat.lt_trichotomy a.number b.number with hlt | heq | hgt
  · exact hlt
  · rw [ha.eq_of_number hb heq] at h
    exact absurd h (Nat.lt_irrefl _)
  · exact absurd h (Nat.lt_asymm (toSeconds_lt hb ha hgt))

theorem ofSeconds_inj {m : Nat} (h : ofSeconds m = ofSeconds n) : m = n := by
  rw [← toSeconds_ofSeconds m, h, toSeconds_ofSeconds]

private theorem number_ofSeconds_lt_iff {m : Nat} :
    (ofSeconds m).number < (ofSeconds n).number ↔ m < n := by
  constructor
  · intro h
    exact Nat.lt_of_not_le fun hle => absurd (ofSeconds_mono hle) (Nat.not_le.mpr h)
  · intro h
    refine Nat.lt_of_le_of_ne (ofSeconds_mono (Nat.le_of_lt h)) fun heq => ?_
    exact Nat.ne_of_lt h (ofSeconds_inj ((ofSeconds_dated m).eq_of_number (ofSeconds_dated n) heq))

/-- The later of two seconds has the later reading. -/
theorem latest_ofSeconds (m n : Nat) : latest (ofSeconds m) (ofSeconds n) = ofSeconds (max m n) := by
  simp only [latest, number_ofSeconds_lt_iff]
  split
  · next h => rw [Nat.max_eq_right (Nat.le_of_lt h)]
  · next h => rw [Nat.max_eq_left (Nat.not_lt.mp h)]

end Civil
end ConfigSteward
