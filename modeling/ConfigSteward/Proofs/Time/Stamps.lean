import ConfigSteward.Proofs.Name.BackupName

/-!
# Stamps are read back

A reading of the clock is a date of the calendar, and reading a stamp gives back what was written in
it, as long as the year has four digits.
-/
namespace ConfigSteward

namespace Civil

variable {c : Civil}

theorem isLeap_iff {year : Nat} :
    isLeap year = true ↔ year % 4 = 0 ∧ (year % 100 ≠ 0 ∨ year % 400 = 0) := by
  simp [isLeap]

/-- The days of a month and of so many after it. -/
def daysThrough (year month : Nat) : Nat → Nat
  | 0 => daysInMonth year month
  | more + 1 => daysInMonth year month + daysThrough year (month + 1) more

private theorem daysThrough_year (year : Nat) :
    daysThrough year 1 11 = if isLeap year then 366 else 365 := by
  cases h : isLeap year <;> simp [daysThrough, daysInMonth, h]

/-- Counting days through months ends at a day that its month has. -/
theorem monthAndDay_valid {year rest month tries : Nat} (h : rest < daysThrough year month tries) :
    month ≤ (monthAndDay year rest month tries).1 ∧
      (monthAndDay year rest month tries).1 ≤ month + tries ∧
      1 ≤ (monthAndDay year rest month tries).2 ∧
      (monthAndDay year rest month tries).2
        ≤ daysInMonth year (monthAndDay year rest month tries).1 := by
  induction tries generalizing rest month with
  | zero =>
    rw [daysThrough] at h
    simp only [monthAndDay]
    omega
  | succ tries ih =>
    rw [daysThrough] at h
    rw [monthAndDay]
    split
    · simp only
      omega
    · have hrest : rest - daysInMonth year month < daysThrough year (month + 1) tries := by omega
      have hvalid := ih hrest
      omega

/-- What is left of the days after the whole years is a day of the next year: only a leap year has a
day for the last one of four years. -/
theorem rest_lt_daysThrough {m n100 n4 n1 year : Nat} (h100 : n100 = min (m % 146097 / 36524) 3)
    (h4 : n4 = (m % 146097 - n100 * 36524) / 1461)
    (h1 : n1 = min ((m % 146097 - n100 * 36524) % 1461 / 365) 3)
    (hyear : year = m / 146097 * 400 + n100 * 100 + n4 * 4 + n1 + 1) :
    (m % 146097 - n100 * 36524) % 1461 - n1 * 365 < daysThrough year 1 11 := by
  rw [daysThrough_year]
  split
  · omega
  · next hleap =>
    rw [isLeap_iff] at hleap
    omega

theorem ofDayNumber_valid (n : Nat) :
    1 ≤ (ofDayNumber n).1 ∧ 1 ≤ (ofDayNumber n).2.1 ∧ (ofDayNumber n).2.1 ≤ 12 ∧
      1 ≤ (ofDayNumber n).2.2 ∧
      (ofDayNumber n).2.2 ≤ daysInMonth (ofDayNumber n).1 (ofDayNumber n).2.1 :=
  ⟨Nat.le_add_left 1 _, monthAndDay_valid (rest_lt_daysThrough rfl rfl rfl rfl)⟩

/-- A reading of the clock is a second of the calendar. -/
theorem ofSeconds_valid {n : Nat} (h : (ofSeconds n).year ≤ 9999) : (ofSeconds n).Valid := by
  obtain ⟨hyear, hmonth, hmonth', hday, hday'⟩ := ofDayNumber_valid (n / 86400 + 1)
  refine ⟨hyear, h, hmonth, hmonth', hday, hday', ?_, ?_, ?_⟩
  · change n % 86400 / 3600 ≤ 23
    omega
  · change n % 3600 / 60 ≤ 59
    omega
  · change n % 60 ≤ 59
    omega

theorem Valid.stampable (h : c.Valid) (hyear : 1000 ≤ c.year) : c.Stampable := by
  obtain ⟨-, hyear', -, hmonth, -, hday, hhour, hminute, hsecond⟩ := h
  have hdays := daysInMonth_bounds c.year c.month
  exact ⟨⟨hyear, hyear'⟩, by omega, by omega, by omega, by omega, by omega⟩

end Civil

namespace Stamp

variable {c : Civil}

theorem digitsValue_two {a b : Nat} (ha : a < 10) (hb : b < 10) :
    Text.digitsValue [Nat.digitChar a, Nat.digitChar b] = 10 * a + b := by
  have hvalue : ∀ n < 10, (Text.digitValue? (Nat.digitChar n)).getD 0 = n := by decide
  simp [Text.digitsValue, hvalue a ha, hvalue b hb]

theorem digitsValue_twoPlaces {n : Nat} (h : n < 100) : Text.digitsValue (twoPlaces n) = n := by
  rw [twoPlaces, digitsValue_two (by omega) (by omega)]
  omega

/-- A field of two places is read back. -/
theorem readField_twoPlaces {pair : Char → Char → Bool} {n : Nat} (h : n < 100)
    (hpair : pair (Nat.digitChar (n / 10)) (Nat.digitChar (n % 10)) = true) (rest : List Char) :
    readField pair (twoPlaces n ++ rest) = some (n, rest) := by
  have hvalue := digitsValue_twoPlaces h
  rw [twoPlaces] at hvalue
  simp only [twoPlaces, List.cons_append, List.nil_append, readField, hpair, if_true, hvalue]

private theorem isMonth_twoPlaces : ∀ n < 13, 1 ≤ n →
    isMonth (Nat.digitChar (n / 10)) (Nat.digitChar (n % 10)) = true := by decide

private theorem isDay_twoPlaces : ∀ n < 32, 1 ≤ n →
    isDay (Nat.digitChar (n / 10)) (Nat.digitChar (n % 10)) = true := by decide

private theorem isHour_twoPlaces : ∀ n < 24,
    isHour (Nat.digitChar (n / 10)) (Nat.digitChar (n % 10)) = true := by decide

private theorem isMinute_twoPlaces : ∀ n < 60,
    isMinute (Nat.digitChar (n / 10)) (Nat.digitChar (n % 10)) = true := by decide

private theorem readTime_twoPlaces {hour minute second : Nat} (hhour : hour ≤ 23) (hminute : minute ≤ 59)
    (hsecond : second ≤ 59) :
    readTime (twoPlaces hour ++ (twoPlaces minute ++ (twoPlaces second ++ [])))
      = some (hour, minute, second, []) := by
  have hminute' := isMinute_twoPlaces minute (by omega)
  have hsecond' : isSecond (Nat.digitChar (second / 10)) (Nat.digitChar (second % 10)) = true := by
    simp [isSecond, isMinute_twoPlaces second (by omega)]
  simp only [readTime, readField_twoPlaces (by omega) (isHour_twoPlaces hour (by omega)),
    readField_twoPlaces (by omega) hminute', readField_twoPlaces (by omega) hsecond',
    Option.bind_eq_bind, Option.bind_some, Option.pure_def]

/-- A year of four digits is written in two fields. -/
theorem toDigits_year {year : Nat} (h : 1000 ≤ year) (h' : year ≤ 9999) :
    Nat.toDigits 10 year = twoPlaces (year / 100) ++ twoPlaces (year % 100) := by
  have hthousands : year / 10 / 10 / 10 = year / 100 / 10 := by omega
  have hhundreds : year / 10 / 10 % 10 = year / 100 % 10 := by omega
  have htens : year / 10 % 10 = year % 100 / 10 := by omega
  have hones : year % 10 = year % 100 % 10 := by omega
  rw [Nat.toDigits_of_base_le (by decide) (by omega),
    Nat.toDigits_of_base_le (by decide) (by omega), Nat.toDigits_of_base_le (by decide) (by omega),
    Nat.toDigits_of_lt_base (by omega), hthousands, hhundreds, htens, hones]
  rfl

private theorem digitsValue_four (w x y z : Char) :
    Text.digitsValue [w, x, y, z] = 100 * Text.digitsValue [w, x] + Text.digitsValue [y, z] := by
  simp only [Text.digitsValue, List.foldl_cons, List.foldl_nil]
  omega

private theorem all_isDigit_twoPlaces {n : Nat} (h : n < 100) : (twoPlaces n).all Text.isDigit = true :=
  List.all_eq_true.mpr fun x hx => isDigit_of_place (isDigit_twoPlaces h x hx)

/-- Reading gives back what was written. -/
theorem readChars_writeChars (h : c.Valid) (hyear : 1000 ≤ c.year) :
    readChars (writeChars c) = .ok c := by
  obtain ⟨year, month, day, hour, minute, second⟩ := c
  obtain ⟨-, hyear', hmonth, hmonth', hday, hday', hhour, hminute, hsecond⟩ := h
  simp only at hyear hyear' hmonth hmonth' hday hday' hhour hminute hsecond
  have hdays := (Civil.daysInMonth_bounds year month).2
  have hcentury := all_isDigit_twoPlaces (n := year / 100) (by omega)
  have hdecade := all_isDigit_twoPlaces (n := year % 100) (by omega)
  have hvalue : 100 * Text.digitsValue (twoPlaces (year / 100))
      + Text.digitsValue (twoPlaces (year % 100)) = year := by
    rw [digitsValue_twoPlaces (by omega), digitsValue_twoPlaces (by omega)]
    omega
  have hmonthForm := isMonth_twoPlaces month (by omega) hmonth
  have hdayForm := isDay_twoPlaces day (by omega) hday
  have hmonthValue := digitsValue_twoPlaces (n := month) (by omega)
  have hdayValue := digitsValue_twoPlaces (n := day) (by omega)
  have htime := readTime_twoPlaces hhour hminute hsecond
  have hdate : checkDate year month day = .ok () := by
    have hzero : ¬ (day = 0 ∨ Civil.daysInMonth year month < day) := by omega
    rw [checkDate, if_neg (by omega), if_neg (by simpa using hzero)]
  have hlast : ¬ 59 < second := by omega
  simp only [twoPlaces, List.all_cons, List.all_nil, Bool.and_true, Bool.and_eq_true,
    List.cons_append, List.nil_append] at hcentury hdecade hvalue hmonthValue hdayValue htime
  simp only [writeChars, toDigits_year hyear hyear', twoPlaces, List.cons_append, List.nil_append,
    readChars, List.all_cons, List.all_nil, hcentury, hdecade, hmonthForm, hdayForm, Bool.and_true,
    if_true, htime, List.isEmpty_nil, digitsValue_four, hvalue, hmonthValue, hdayValue, hdate,
    gt_iff_lt, hlast, if_false]

end Stamp
end ConfigSteward
