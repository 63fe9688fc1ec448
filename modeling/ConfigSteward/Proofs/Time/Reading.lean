import ConfigSteward.Files.Tree
import ConfigSteward.Proofs.Number.Rounding
import ConfigSteward.Proofs.Time.Stamps
import Mathlib

/-!
# What has a reading

The digits of a stamp have a reading if they spell a second of the calendar. They may be of any
script, but for the first digit of a field and those after it that are checked one by one. A time in
the years 1 to 9999 has a reading as well, except on the first day and just before the end.
-/
namespace ConfigSteward

namespace Stamp

open Text

variable {a b lo hi : Char} {cs r : List Char} {n : Nat} {pair : Char → Char → Bool}

/-! ### The digits of a stamp -/

/-- The fields that the digits of a stamp spell. -/
def spelled (cs : List Char) : Civil :=
  ⟨digitsValue (cs.take 4), digitsValue ((cs.drop 4).take 2), digitsValue ((cs.drop 6).take 2),
    digitsValue ((cs.drop 9).take 2), digitsValue ((cs.drop 11).take 2),
    digitsValue ((cs.drop 13).take 2)⟩

/-- The first digit of a field is one of ASCII, and so is the second after the digits listed. -/
def LeadsInAscii (checked : List Char) : List Char → Prop
  | a :: b :: _ => isAsciiDigit a = true ∧ (a ∈ checked → isAsciiDigit b = true)
  | _ => False

/-- The digits of a stamp spell a second of the calendar, in scripts in which it is read. -/
structure NamesSecond (cs : List Char) : Prop where
  valid : (spelled cs).Valid
  month : LeadsInAscii ['0', '1'] (cs.drop 4)
  day : LeadsInAscii ['0', '3'] (cs.drop 6)
  hour : LeadsInAscii ['2'] (cs.drop 9)
  minute : LeadsInAscii [] (cs.drop 11)
  second : LeadsInAscii [] (cs.drop 13)

instance (checked : List Char) : (cs : List Char) → Decidable (LeadsInAscii checked cs)
  | _ :: _ :: _ => inferInstanceAs (Decidable (_ ∧ _))
  | [] | [_] => inferInstanceAs (Decidable False)

instance (cs : List Char) : Decidable (NamesSecond cs) :=
  decidable_of_iff ((spelled cs).Valid ∧ LeadsInAscii ['0', '1'] (cs.drop 4) ∧
      LeadsInAscii ['0', '3'] (cs.drop 6) ∧ LeadsInAscii ['2'] (cs.drop 9) ∧
      LeadsInAscii [] (cs.drop 11) ∧ LeadsInAscii [] (cs.drop 13))
    ⟨fun h => ⟨h.1, h.2.1, h.2.2.1, h.2.2.2.1, h.2.2.2.2.1, h.2.2.2.2.2⟩,
      fun h => ⟨h.valid, h.month, h.day, h.hour, h.minute, h.second⟩⟩

private theorem digitsValue_pair (a b : Char) :
    digitsValue [a, b] = 10 * (digitValue? a).getD 0 + (digitValue? b).getD 0 := by
  simp [digitsValue]

private theorem digitValue_lt (a : Char) : (digitValue? a).getD 0 < 10 := by
  rw [digitValue?]
  rcases hfind : digitZeros.find? _ with _ | start
  · simp
  · have hrange := List.find?_some hfind
    simp only [Bool.and_eq_true, decide_eq_true_eq] at hrange
    simp only [Option.map_some, Option.getD_some]
    omega

private theorem isAsciiDigit_iff : isAsciiDigit a = true ↔ '0' ≤ a ∧ a ≤ '9' := by
  simp [isAsciiDigit]

private theorem eq_digitChar_of_isAsciiDigit (h : isAsciiDigit a = true) :
    ∃ n < 10, a = Nat.digitChar n := by
  have hrange : 48 ≤ a.toNat ∧ a.toNat ≤ 57 := by
    simpa [isAsciiDigit, Char.le_def, UInt32.le_iff_toNat_le] using h
  refine ⟨a.toNat - 48, by omega, ?_⟩
  apply Char.toNat_inj.mp
  rw [Nat.toNat_digitChar_of_lt_ten (by omega)]
  omega

private theorem ne_of_isAsciiDigit (ha : isAsciiDigit a = false) (hb : isAsciiDigit b = true) : a ≠ b := by
  rintro rfl
  exact absurd hb (by simp [ha])

private theorem between_eq_false (ha : isAsciiDigit a = false) (lo hi : Char) (hlo : '0' ≤ lo)
    (hhi : hi ≤ '9') : (decide (lo ≤ a) && decide (a ≤ hi)) = false := by
  have hout : ¬ ('0' ≤ a ∧ a ≤ '9') := by simp [← isAsciiDigit_iff, ha]
  rw [Bool.eq_false_iff]
  intro hin
  obtain ⟨hin, hin'⟩ := by simpa using hin
  exact hout ⟨Char.le_trans hlo hin, Char.le_trans hin' hhi⟩

/-- How a field of two digits is tested. The first digit is one of ASCII. The second one is compared
with others of ASCII after the digits listed, and after the rest of them it makes no difference. -/
structure Tests (pair : Char → Char → Bool) (checked : List Char) (least greatest : Nat) :
    Prop where
  ascii : ∀ m < 10, ∀ n < 10, pair (Nat.digitChar m) (Nat.digitChar n)
    = decide (least ≤ 10 * m + n ∧ 10 * m + n ≤ greatest)
  free : ∀ m < 10, Nat.digitChar m ∉ checked → ∀ n < 10,
    pair (Nat.digitChar m) (Nat.digitChar n) = pair (Nat.digitChar m) '0'
  first : ∀ a b, isAsciiDigit a = false → pair a b = false
  second : ∀ m < 10, ∀ b, isDigit b = true → isAsciiDigit b = false →
    pair (Nat.digitChar m) b = (decide (Nat.digitChar m ∉ checked) && pair (Nat.digitChar m) '0')

/-- What passes the test is a number in the bounds, written as the test asks for. -/
theorem Tests.pair_iff {checked : List Char} {least greatest : Nat}
    (h : Tests pair checked least greatest) (hb : isDigit b = true) (r : List Char) :
    pair a b = true ↔ LeadsInAscii checked (a :: b :: r) ∧ least ≤ digitsValue [a, b] ∧
      digitsValue [a, b] ≤ greatest := by
  rcases ha : isAsciiDigit a with _ | _
  · simp [LeadsInAscii, h.first a b ha, ha]
  obtain ⟨m, hm, rfl⟩ := eq_digitChar_of_isAsciiDigit ha
  rcases hb' : isAsciiDigit b with _ | _
  · have hvalue : digitsValue [Nat.digitChar m, b] = 10 * m + (digitValue? b).getD 0 := by
      have hdigits : ∀ m < 10, (digitValue? (Nat.digitChar m)).getD 0 = m := by decide
      rw [digitsValue_pair, hdigits m hm]
    have hlt := digitValue_lt b
    rw [h.second m hm b hb hb', hvalue]
    by_cases hchecked : Nat.digitChar m ∈ checked
    · simp [LeadsInAscii, hchecked, hb']
    · simp [LeadsInAscii, hchecked, ha, ← h.free m hm hchecked _ hlt, h.ascii m hm _ hlt]
  · obtain ⟨n, hn, rfl⟩ := eq_digitChar_of_isAsciiDigit hb'
    simp [LeadsInAscii, ha, hb', h.ascii m hm n hn, digitsValue_two hm hn]

private theorem tests_month : Tests isMonth ['0', '1'] 1 12 where
  ascii := by decide
  free := by decide
  first := by
    intro a b ha
    simp [isMonth, ne_of_isAsciiDigit ha (b := '0') rfl, ne_of_isAsciiDigit ha (b := '1') rfl]
  second := by
    intro m hm b _ hb
    have hlow := between_eq_false hb '0' '2' (by decide) (by decide)
    have hhigh := between_eq_false hb '1' '9' (by decide) (by decide)
    interval_cases m <;> simp [isMonth, Nat.digitChar, hlow, hhigh]

private theorem tests_day : Tests isDay ['0', '3'] 1 31 where
  ascii := by decide
  free := by decide
  first := by
    intro a b ha
    have h0 := ne_of_isAsciiDigit ha (b := '0') rfl
    have h1 := ne_of_isAsciiDigit ha (b := '1') rfl
    have h2 := ne_of_isAsciiDigit ha (b := '2') rfl
    have h3 := ne_of_isAsciiDigit ha (b := '3') rfl
    simp [isDay, h0, h1, h2, h3]
  second := by
    intro m hm b hdigit hb
    have hhigh := between_eq_false hb '1' '9' (by decide) (by decide)
    have h0 := ne_of_isAsciiDigit hb (b := '0') rfl
    have h1 := ne_of_isAsciiDigit hb (b := '1') rfl
    have hzero : isDigit '0' = true := by decide
    interval_cases m <;> simp [isDay, Nat.digitChar, hhigh, h0, h1, hdigit, hzero]

private theorem tests_hour : Tests isHour ['2'] 0 23 where
  ascii := by decide
  free := by decide
  first := by
    intro a b ha
    have h0 := ne_of_isAsciiDigit ha (b := '0') rfl
    have h1 := ne_of_isAsciiDigit ha (b := '1') rfl
    have h2 := ne_of_isAsciiDigit ha (b := '2') rfl
    simp [isHour, h0, h1, h2]
  second := by
    intro m hm b hdigit hb
    have hlow := between_eq_false hb '0' '3' (by decide) (by decide)
    have hzero : isDigit '0' = true := by decide
    interval_cases m <;> simp [isHour, Nat.digitChar, hlow, hdigit, hzero]

private theorem tests_minute : Tests isMinute [] 0 59 where
  ascii := by decide
  free := by decide
  first := by
    intro a b ha
    rw [isMinute, between_eq_false ha '0' '5' (by decide) (by decide), Bool.false_and]
  second := by
    intro m hm b hdigit _
    have hzero : isDigit '0' = true := by decide
    simp [isMinute, hdigit, hzero]

/-! ### Stamps that are read -/

private theorem readField_pair {t : List Char} (h : pair a b = true) :
    readField pair (a :: b :: t) = some (digitsValue [a, b], t) := by
  rw [readField, if_pos h]

private theorem readField_cases {t : List Char} (h : readField pair (a :: b :: t) = some (n, r)) :
    pair a b = true ∧ n = digitsValue [a, b] ∧ r = t ∨ r = b :: t := by
  rw [readField] at h
  split at h
  · next hpair =>
    obtain ⟨rfl, rfl⟩ := by simpa using h
    exact .inl ⟨hpair, rfl, rfl⟩
  · split at h
    · obtain ⟨-, rfl⟩ := by simpa using h
      exact .inr rfl
    · cases h

private theorem length_of_readField (h : readField pair cs = some (n, r)) : cs.length ≤ r.length + 2 := by
  rcases cs with _ | ⟨a, _ | ⟨b, t⟩⟩
  · cases h
  · simp
  · rcases readField_cases h with ⟨-, -, rfl⟩ | rfl
    · simp
    · simp

/-- Six digits are read as three fields of two. A field of one digit leaves too many for the
others. -/
theorem readTime_eq_some {h₁ h₂ n₁ n₂ s₁ s₂ : Char} {hour minute second : Nat}
    (h : readTime [h₁, h₂, n₁, n₂, s₁, s₂] = some (hour, minute, second, [])) :
    isHour h₁ h₂ = true ∧ isMinute n₁ n₂ = true ∧ isSecond s₁ s₂ = true ∧
      hour = digitsValue [h₁, h₂] ∧ minute = digitsValue [n₁, n₂] ∧
      second = digitsValue [s₁, s₂] := by
  obtain ⟨⟨hour', r⟩, hhour, h⟩ := Option.bind_eq_some_iff.mp h
  obtain ⟨⟨minute', r'⟩, hminute, h⟩ := Option.bind_eq_some_iff.mp h
  obtain ⟨⟨second', r''⟩, hsecond, h⟩ := Option.bind_eq_some_iff.mp h
  simp only [Option.pure_def, Option.some.injEq, Prod.mk.injEq] at h
  obtain ⟨rfl, rfl, rfl, rfl⟩ := h
  have hlength := length_of_readField hminute
  have hlength' := length_of_readField hsecond
  simp only [List.length_nil] at hlength'
  rcases readField_cases hhour with ⟨hform, rfl, rfl⟩ | rfl
  · rcases readField_cases hminute with ⟨hform', rfl, rfl⟩ | rfl
    · rcases readField_cases hsecond with ⟨hform'', rfl, -⟩ | hrest
      · exact ⟨hform, hform', hform'', rfl, rfl, rfl⟩
      · cases hrest
    · simp at hlength'
  · simp only [List.length_cons, List.length_nil] at hlength
    omega

private theorem readTime_pairs {h₁ h₂ n₁ n₂ s₁ s₂ : Char} (hhour : isHour h₁ h₂ = true)
    (hminute : isMinute n₁ n₂ = true) (hsecond : isSecond s₁ s₂ = true) :
    readTime [h₁, h₂, n₁, n₂, s₁, s₂]
      = some (digitsValue [h₁, h₂], digitsValue [n₁, n₂], digitsValue [s₁, s₂], []) := by
  simp only [readTime, readField_pair hhour, readField_pair hminute, readField_pair hsecond,
    Option.bind_eq_bind, Option.bind_some, Option.pure_def]

/-- A field of seconds is one of minutes, except for the two leap seconds. -/
theorem isMinute_iff_isSecond :
    isMinute a b = true ↔ isSecond a b = true ∧ digitsValue [a, b] ≤ 59 := by
  constructor
  · intro h
    have hb : isDigit b = true := by
      simp only [isMinute, Bool.and_eq_true] at h
      exact h.2
    exact ⟨by simp [isSecond, h], ((tests_minute.pair_iff hb []).mp h).2.2⟩
  · rintro ⟨h, hle⟩
    simp only [isSecond, Bool.or_eq_true, Bool.and_eq_true, decide_eq_true_eq] at h
    rcases h with ⟨rfl, rfl | rfl⟩ | h
    · exact absurd hle (by decide)
    · exact absurd hle (by decide)
    · exact h

private theorem checkDate_eq_ok_iff {year month day : Nat} : checkDate year month day = .ok () ↔
    1 ≤ year ∧ 1 ≤ day ∧ day ≤ Civil.daysInMonth year month := by
  rw [checkDate]
  split
  · simp
    omega
  · split
    · next hday =>
      simp only [Bool.or_eq_true, decide_eq_true_eq] at hday
      simp only [reduceCtorEq, false_iff]
      omega
    · next hday =>
      simp only [Bool.or_eq_true, decide_eq_true_eq] at hday
      simp only [true_iff]
      omega

private theorem exists_pair (h : cs.length = n + 2) : ∃ a b r, cs = a :: b :: r ∧ r.length = n := by
  obtain ⟨a, cs, rfl⟩ := List.exists_cons_of_length_eq_add_one h
  obtain ⟨b, r, rfl⟩ := List.exists_cons_of_length_eq_add_one (Nat.succ.inj h)
  exact ⟨a, b, r, rfl, Nat.succ.inj (Nat.succ.inj h)⟩

private theorem eq_of_isStamp (h : Name.isStamp cs = true) :
    ∃ y₁ y₂ y₃ y₄ m₁ m₂ d₁ d₂ h₁ h₂ n₁ n₂ s₁ s₂,
      cs = [y₁, y₂, y₃, y₄, m₁, m₂, d₁, d₂, '_', h₁, h₂, n₁, n₂, s₁, s₂] ∧
        [y₁, y₂, y₃, y₄].all isDigit = true ∧ ∀ x ∈ [m₂, d₂, h₂, n₂, s₂], isDigit x = true := by
  simp only [Name.isStamp, Bool.and_eq_true, decide_eq_true_eq] at h
  obtain ⟨⟨⟨hlength, hdate⟩, hmark⟩, htime⟩ := h
  obtain ⟨y₁, y₂, cs, rfl, hdecade⟩ := exists_pair hlength
  obtain ⟨y₃, y₄, cs, rfl, hmonth⟩ := exists_pair hdecade
  obtain ⟨m₁, m₂, cs, rfl, hday⟩ := exists_pair hmonth
  obtain ⟨d₁, d₂, cs, rfl, hrest⟩ := exists_pair hday
  obtain ⟨mark, cs, rfl⟩ := List.exists_cons_of_length_eq_add_one hrest
  obtain ⟨h₁, h₂, cs, rfl, hminute⟩ := exists_pair (Nat.succ.inj hrest)
  obtain ⟨n₁, n₂, cs, rfl, hsecond⟩ := exists_pair hminute
  obtain ⟨s₁, s₂, cs, rfl, hend⟩ := exists_pair hsecond
  obtain rfl := List.length_eq_zero_iff.mp hend
  obtain rfl : mark = '_' := by simpa using hmark
  refine ⟨y₁, y₂, y₃, y₄, m₁, m₂, d₁, d₂, h₁, h₂, n₁, n₂, s₁, s₂, rfl, ?_, ?_⟩
  · simp only [List.take_succ_cons, List.take_zero, List.all_cons, List.all_nil,
      Bool.and_true, Bool.and_eq_true] at hdate ⊢
    exact ⟨hdate.1, hdate.2.1, hdate.2.2.1, hdate.2.2.2.1⟩
  · simp only [List.take_succ_cons, List.take_zero, List.drop_succ_cons, List.drop_zero,
      List.all_cons, List.all_nil, Bool.and_true, Bool.and_eq_true] at hdate htime
    simp [hdate, htime]

/-- Reading gives the second that the digits of a stamp spell, if they do. -/
theorem readChars_eq_ok_iff {c : Civil} (h : Name.isStamp cs = true) :
    readChars cs = .ok c ↔ NamesSecond cs ∧ c = spelled cs := by
  obtain ⟨y₁, y₂, y₃, y₄, m₁, m₂, d₁, d₂, h₁, h₂, n₁, n₂, s₁, s₂, rfl, hyear, hdigits⟩ :=
    eq_of_isStamp h
  have hmonth := tests_month.pair_iff (a := m₁) (hdigits m₂ (by simp))
    [d₁, d₂, '_', h₁, h₂, n₁, n₂, s₁, s₂]
  have hday := tests_day.pair_iff (a := d₁) (hdigits d₂ (by simp)) ['_', h₁, h₂, n₁, n₂, s₁, s₂]
  have hhour := tests_hour.pair_iff (a := h₁) (hdigits h₂ (by simp)) [n₁, n₂, s₁, s₂]
  have hminute := tests_minute.pair_iff (a := n₁) (hdigits n₂ (by simp)) [s₁, s₂]
  have hsecond := tests_minute.pair_iff (a := s₁) (hdigits s₂ (by simp)) []
  have hlt : digitsValue [y₁, y₂, y₃, y₄] ≤ 9999 := by
    have := digitValue_lt y₁
    have := digitValue_lt y₂
    have := digitValue_lt y₃
    have := digitValue_lt y₄
    simp only [digitsValue, List.foldl_cons, List.foldl_nil]
    omega
  constructor
  · intro hread
    simp only [readChars, hyear, Bool.true_and, Bool.and_eq_true] at hread
    split at hread
    · next hdate =>
      split at hread
      · cases hread
      · next hour minute second rest htime =>
        split at hread
        · next hrest =>
          obtain rfl := List.isEmpty_iff.mp hrest
          obtain ⟨hhour', hminute', hsecond', rfl, rfl, rfl⟩ := readTime_eq_some htime
          split at hread
          · cases hread
          · next hcheck =>
            obtain ⟨hyear', hday', hday''⟩ := checkDate_eq_ok_iff.mp hcheck
            split at hread
            · cases hread
            · next hleap =>
              obtain ⟨hscript, hleast, hgreatest⟩ := hmonth.mp hdate.1
              have hdayScript := (hday.mp hdate.2).1
              have hhourField := hhour.mp hhour'
              have hminuteField := hminute.mp hminute'
              have hsecondField := hsecond.mp
                (isMinute_iff_isSecond.mpr ⟨hsecond', Nat.not_lt.mp hleap⟩)
              have hvalid : (spelled [y₁, y₂, y₃, y₄, m₁, m₂, d₁, d₂, '_', h₁, h₂, n₁, n₂, s₁,
                  s₂]).Valid :=
                ⟨hyear', hlt, hleast, hgreatest, hday', hday'', hhourField.2.2, hminuteField.2.2,
                  hsecondField.2.2⟩
              exact ⟨⟨hvalid, hscript, hdayScript, hhourField.1, hminuteField.1, hsecondField.1⟩,
                (Except.ok.inj hread).symm⟩
        · cases hread
    · cases hread
  · rintro ⟨hnames, rfl⟩
    obtain ⟨hyear', -, hmonth', hmonth'', hday', hday'', hhour', hminute', hsecond'⟩ := hnames.valid
    have hdays := (Civil.daysInMonth_bounds (digitsValue [y₁, y₂, y₃, y₄]) (digitsValue [m₁, m₂])).2
    have hday31 : digitsValue [d₁, d₂] ≤ 31 := hday''.trans hdays
    have hseconds := hsecond.mpr ⟨hnames.second, Nat.zero_le _, hsecond'⟩
    have htime := readTime_pairs (hhour.mpr ⟨hnames.hour, Nat.zero_le _, hhour'⟩)
      (hminute.mpr ⟨hnames.minute, Nat.zero_le _, hminute'⟩) (isMinute_iff_isSecond.mp hseconds).1
    have hcheck : checkDate (digitsValue [y₁, y₂, y₃, y₄]) (digitsValue [m₁, m₂])
        (digitsValue [d₁, d₂]) = .ok () := checkDate_eq_ok_iff.mpr ⟨hyear', hday', hday''⟩
    have hlast : ¬ digitsValue [s₁, s₂] > 59 := Nat.not_lt.mpr hsecond'
    simp only [readChars, hyear, hmonth.mpr ⟨hnames.month, hmonth', hmonth''⟩,
      hday.mpr ⟨hnames.day, hday', hday31⟩, Bool.and_true, if_true, htime, List.isEmpty_nil, hcheck,
      hlast, if_false]
    rfl

/-- Arabic digits in the year are read, in the month they are not, and there is no 29 February in
2023. -/
example : NamesSecond "٢٠٢٤0229_120000".toList ∧ ¬ NamesSecond "2024٠٢29_120000".toList ∧
    ¬ NamesSecond "20230229_120000".toList := by decide

end Stamp

/-! ### Times that have a reading -/

namespace Changed

open Binary64

variable {changed : Changed}

/-- The time is one of the years 1 to 9999, but not of their first day, and not so close to their
end that the number nearest to it is the end. -/
def Timely : Changed → Prop
  | known nanos => -62135510400 * 10 ^ 9 ≤ nanos ∧ nanos ≤ 253402300799 * 10 ^ 9 + 999984741
  | lately => True

/-- A timely time, given in millionths of a second. -/
theorem roundScaled_range {nanos : Int} (hlow : -62135510400 * 10 ^ 9 ≤ nanos)
    (hhigh : nanos ≤ 253402300799 * 10 ^ 9 + 999984741) :
    -62135510400 * 10 ^ 6 ≤ (ofRatio (nanos < 0) nanos.natAbs 1000000000).roundScaled 1000000 ∧
      (ofRatio (nanos < 0) nanos.natAbs 1000000000).roundScaled 1000000
        < 253402300800 * 10 ^ 6 := by
  rcases lt_trichotomy nanos 0 with hneg | rfl | hpos
  · have hnum : 0 < nanos.natAbs := by omega
    have hsmall : nanos.natAbs < 1000000000 * 2 ^ 38 := by omega
    have hle : nanos.natAbs ≤ 62135510400 * 1000000000 := by omega
    obtain ⟨hlow', hhigh'⟩ := roundScaled_bounds hnum (by decide) hsmall (by decide) hle
      (decide (nanos < 0)) 1000000
    exact ⟨by omega, by omega⟩
  · rw [Int.natAbs_zero, roundScaled_zero]
    decide
  · have hnum : 0 < nanos.natAbs := by omega
    have hsmall : nanos.natAbs < 1000000000 * 2 ^ 38 := by omega
    have hedge : 2 * (nanos.natAbs * 2 ^ 15)
        < (2 * (253402300800 * 2 ^ 15 - 1) + 1) * 1000000000 := by omega
    have hbound : 253402300800 * 2 ^ 15 - 1 + 1 = 253402300800 * 2 ^ 15 := by decide
    have hscale : 2 ^ 14 < 1000000 := by decide
    have hlt := roundScaled_lt hnum (by decide) (by decide) hedge (by decide) (by decide) hbound
      hscale
    obtain ⟨k, -, -, hround⟩ := roundScaled_ofRatio hnum (by decide) hsmall (by decide) false
      1000000
    have hnonneg : 0 ≤ (ofRatio false nanos.natAbs 1000000000).roundScaled 1000000 := by
      rw [hround]
      exact Int.natCast_nonneg _
    rw [decide_eq_false (by omega)]
    exact ⟨by omega, by omega⟩

theorem Timely.reading (h : changed.Timely) : ∃ c, changed.reading? = .ok c := by
  cases changed with
  | lately => exact ⟨none, rfl⟩
  | known nanos =>
    obtain ⟨hlow, hhigh⟩ := roundScaled_range h.1 h.2
    rw [reading?]
    generalize (ofRatio (nanos < 0) nanos.natAbs 1000000000).roundScaled 1000000 = micros at *
    have hepoch : (Civil.unixEpoch : Int) = 62135596800 := rfl
    have hend : (Civil.endOfTime : Int) = 315537897600 := rfl
    have hseconds : Int.fdiv micros 1000000 = micros / 1000000 :=
      Int.fdiv_eq_ediv_of_nonneg micros (by decide)
    have hreading : ∃ c, Stamp.ofUnixMicros micros = .ok c := by
      rw [Stamp.ofUnixMicros, hseconds, if_neg (by omega), if_neg (by omega), if_neg (by omega)]
      exact ⟨_, rfl⟩
    obtain ⟨c, hc⟩ := hreading
    exact ⟨some c, by rw [hc]; rfl⟩

end Changed
end ConfigSteward
