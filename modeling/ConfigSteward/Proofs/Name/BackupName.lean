import ConfigSteward.Name.Server
import ConfigSteward.Proofs.Name.Grammar

/-!
# Reading the names of backups

The name of a backup of an artifact is safe, ends in `.backup` and tells the artifact, as long as
the year of its stamp has four digits.
-/
namespace ConfigSteward

namespace Civil

/-- The fields fit the places that a stamp has for them. -/
structure Stampable (c : Civil) : Prop where
  year : 1000 ≤ c.year ∧ c.year ≤ 9999
  month : c.month < 100
  day : c.day < 100
  hour : c.hour < 100
  minute : c.minute < 100
  second : c.second < 100

/-- The fields after the year fit two places each. -/
structure Placed (c : Civil) : Prop where
  month : c.month < 100
  day : c.day < 100
  hour : c.hour < 100
  minute : c.minute < 100
  second : c.second < 100

theorem Stampable.placed {c : Civil} (h : c.Stampable) : c.Placed :=
  ⟨h.month, h.day, h.hour, h.minute, h.second⟩

theorem latest_stampable {a b : Civil} (ha : a.Stampable) (hb : b.Stampable) :
    (latest a b).Stampable := by
  unfold latest
  split
  · exact hb
  · exact ha

theorem daysInMonth_bounds (year month : Nat) :
    28 ≤ daysInMonth year month ∧ daysInMonth year month ≤ 31 := by
  unfold daysInMonth
  split
  · split <;> decide
  · split <;> decide

private theorem monthAndDay_lt {year rest month tries : Nat} (hmonth : month + tries < 100)
    (hrest : rest < 28 * tries + 60) :
    (monthAndDay year rest month tries).1 < 100 ∧ (monthAndDay year rest month tries).2 < 100 := by
  induction tries generalizing rest month with
  | zero =>
    rw [monthAndDay]
    exact ⟨by omega, by omega⟩
  | succ tries ih =>
    have hdays := daysInMonth_bounds year month
    rw [monthAndDay]
    split
    · exact ⟨by omega, by omega⟩
    · exact ih (by omega) (by omega)

/-- A reading of the clock fits a stamp if its year has four digits. -/
theorem ofSeconds_stampable {n : Nat} (h : 1000 ≤ (ofSeconds n).year)
    (h' : (ofSeconds n).year ≤ 9999) : (ofSeconds n).Stampable := by
  refine ⟨⟨h, h'⟩, ?_, ?_, ?_, ?_, ?_⟩
  · change (monthAndDay _ _ 1 11).1 < 100
    refine (monthAndDay_lt (by decide) ?_).1
    omega
  · change (monthAndDay _ _ 1 11).2 < 100
    refine (monthAndDay_lt (by decide) ?_).2
    omega
  · change n % 86400 / 3600 < 100
    omega
  · change n % 3600 / 60 < 100
    omega
  · change n % 60 < 100
    omega

end Civil

namespace Stamp

theorem isDigit_of_place {x : Char} (h : x.isDigit = true) : Text.isDigit x = true := by
  apply Text.isDigit_of_isAsciiDigit
  simpa [Char.isDigit, Text.isAsciiDigit, Char.le_def] using h

private theorem isSafeChar_of_place {x : Char} (h : x.isDigit = true) : Name.isSafeChar x = true := by
  have hrange : '0' ≤ x ∧ x ≤ '9' := by simpa [Char.isDigit, Char.le_def] using h
  simp [Name.isSafeChar, hrange]

theorem isDigit_twoPlaces {n : Nat} (h : n < 100) : ∀ x ∈ twoPlaces n, x.isDigit = true := by
  have hten : n / 10 < 10 := by omega
  have hone : n % 10 < 10 := by omega
  simp [twoPlaces, Nat.isDigit_digitChar, hten, hone]

/-- A stamp is eight digits, an underscore and six digits. -/
theorem writeChars_split {c : Civil} (h : c.Stampable) : ∃ date time,
    writeChars c = date ++ '_' :: time ∧ date.length = 8 ∧ time.length = 6 ∧
      (∀ x ∈ date, x.isDigit = true) ∧ ∀ x ∈ time, x.isDigit = true := by
  have hyear : (Nat.toDigits 10 c.year).length = 4 := by
    have hle := (Nat.length_toDigits_le_iff (b := 10) (n := c.year) (k := 4) (by decide)
      (by decide)).mpr (by have := h.year; omega)
    have hgt := mt (Nat.length_toDigits_le_iff (b := 10) (n := c.year) (k := 3) (by decide)
      (by decide)).mp (by have := h.year; omega)
    omega
  refine ⟨Nat.toDigits 10 c.year ++ twoPlaces c.month ++ twoPlaces c.day,
    twoPlaces c.hour ++ twoPlaces c.minute ++ twoPlaces c.second, ?_, ?_, rfl, ?_, ?_⟩
  · simp [writeChars]
  · simp [hyear, twoPlaces]
  · intro x hx
    simp only [List.mem_append] at hx
    rcases hx with (hx | hx) | hx
    · exact Nat.isDigit_of_mem_toDigits (by decide) (by decide) hx
    · exact isDigit_twoPlaces h.month x hx
    · exact isDigit_twoPlaces h.day x hx
  · intro x hx
    simp only [List.mem_append] at hx
    rcases hx with (hx | hx) | hx
    · exact isDigit_twoPlaces h.hour x hx
    · exact isDigit_twoPlaces h.minute x hx
    · exact isDigit_twoPlaces h.second x hx

theorem isStamp_writeChars {c : Civil} (h : c.Stampable) :
    Name.isStamp (writeChars c) = true := by
  obtain ⟨date, time, heq, hdate, htime, hdigits, hdigits'⟩ := writeChars_split h
  exact Name.isStamp_iff.mpr ⟨date, time, heq,
    ⟨hdate, fun x hx => isDigit_of_place (hdigits x hx)⟩,
    ⟨htime, fun x hx => isDigit_of_place (hdigits' x hx)⟩⟩

end Stamp

namespace Name

variable {artifact : String} {reading : Civil} {counter : Nat}

@[simp] theorem toList_writeBackup (artifact : String) (reading : Civil) (counter : Nat) :
    (writeBackup artifact reading counter).toList
      = (artifact.toList ++ '.' :: Stamp.writeChars reading ++ writeCounter counter)
        ++ backupSuffix.toList := by
  rw [writeBackup, String.toList_ofList]

theorem endsIn_writeBackup (artifact : String) (reading : Civil) (counter : Nat) :
    endsIn backupSuffix (writeBackup artifact reading counter) = true := by
  rw [endsIn, toList_writeBackup]
  exact List.isSuffixOf_iff_suffix.mpr (List.suffix_append _ _)

/-- A file name over the safe alphabet. -/
structure Safe (name : String) : Prop where
  nonempty : name ≠ ""
  noDot : name ≠ "."
  noUp : name ≠ ".."
  chars : ∀ x ∈ name.toList, isSafeChar x = true

theorem Safe.line {name : String} (h : Safe name) : '\n' ∉ name.toList :=
  fun hmem => absurd (h.chars _ hmem) (by decide)

theorem Safe.dropFinalBreak_eq {name : String} (h : Safe name) :
    dropFinalBreak name.toList = name.toList :=
  dropFinalBreak_of_safe (List.all_eq_true.mpr h.chars)

theorem Safe.isSafe {name : String} (h : Safe name) : Name.isSafe name = true := by
  have hlist : name.toList ≠ [] := fun hnil => h.nonempty (String.toList_eq_nil_iff.mp hnil)
  simp [Name.isSafe, h.nonempty, h.noDot, h.noUp,
    isSafeText_of_all hlist (List.all_eq_true.mpr h.chars)]

private theorem utf8Size_of_isSafeChar {x : Char} (h : isSafeChar x = true) : x.utf8Size = 1 := by
  have hle : x.toNat ≤ 127 := by
    simp only [isSafeChar, Bool.or_eq_true, Bool.and_eq_true, decide_eq_true_eq, Char.le_def,
      UInt32.le_iff_toNat_le] at h
    rcases h with ((((h | h) | h) | rfl) | rfl) | rfl
    · exact Nat.le_trans h.2 (by decide)
    · exact Nat.le_trans h.2 (by decide)
    · exact Nat.le_trans h.2 (by decide)
    · decide
    · decide
    · decide
  exact Char.utf8Size_eq_one_iff.mpr hle

theorem utf8ByteSize_ofList_of_safe {cs : List Char} (h : ∀ x ∈ cs, isSafeChar x = true) :
    (String.ofList cs).utf8ByteSize = cs.length := by
  induction cs with
  | nil => rfl
  | cons x cs ih =>
    rw [List.forall_mem_cons] at h
    rw [String.ofList_cons, String.utf8ByteSize_append, String.utf8ByteSize_singleton,
      utf8Size_of_isSafeChar h.1, ih h.2, List.length_cons, Nat.add_comm]

/-- The characters of a safe name take one byte each. -/
theorem Safe.utf8ByteSize_eq {name : String} (h : Safe name) :
    name.utf8ByteSize = name.length := by
  have hsize := utf8ByteSize_ofList_of_safe h.chars
  rwa [String.ofList_toList, String.length_toList] at hsize

/-- A name that passes the test is safe unless it ends in a line break. -/
theorem Safe.of_isSafe {name : String} (h : Name.isSafe name = true)
    (hbreak : name.toList.getLast? ≠ some '\n') : Safe name := by
  simp only [Name.isSafe, isSafeText, dropFinalBreak, if_neg hbreak, Bool.and_eq_true,
    decide_eq_true_eq, ne_eq, List.all_eq_true] at h
  obtain ⟨⟨⟨hempty, hdot⟩, hup⟩, -, hchars⟩ := h
  exact ⟨by simpa using hempty, by simpa using hdot, by simpa using hup, hchars⟩

/-- A line over the safe alphabet with a line break behind it. -/
def Broken (name : String) : Prop :=
  ∃ line : List Char, line ≠ [] ∧ (∀ x ∈ line, isSafeChar x = true) ∧ name.toList = line ++ ['\n']

theorem Broken.getLast?_eq {name : String} (h : Broken name) : name.toList.getLast? = some '\n' := by
  obtain ⟨line, -, -, hname⟩ := h
  rw [hname, List.getLast?_concat]

theorem Broken.break_mem {name : String} (h : Broken name) : '\n' ∈ name.toList :=
  List.mem_of_getLast? h.getLast?_eq

theorem Broken.isSafe {name : String} (h : Broken name) : Name.isSafe name = true := by
  have hother {short : String} (hshort : short.toList.getLast? ≠ some '\n') : name ≠ short := by
    rintro rfl
    exact hshort h.getLast?_eq
  obtain ⟨line, hne, hchars, hname⟩ := h
  have hbody : dropFinalBreak name.toList = line := by
    rw [hname, dropFinalBreak, List.getLast?_concat, if_pos rfl, List.dropLast_concat]
  simp only [Name.isSafe, isSafeText, hbody, Bool.and_eq_true, decide_eq_true_eq,
    List.all_eq_true]
  exact ⟨⟨⟨hother (by decide), hother (by decide)⟩, hother (by decide)⟩, by simpa using hne, hchars⟩

/-- Besides the safe names a line over their alphabet with a line break behind it passes. -/
theorem isSafe_iff {name : String} : Name.isSafe name = true ↔ Safe name ∨ Broken name := by
  constructor
  · intro h
    by_cases hbreak : name.toList.getLast? = some '\n'
    · obtain ⟨line, hname⟩ := List.getLast?_eq_some_iff.mp hbreak
      have hbody : dropFinalBreak name.toList = line := by
        rw [dropFinalBreak, if_pos hbreak, hname, List.dropLast_concat]
      simp only [Name.isSafe, isSafeText, hbody, Bool.and_eq_true, decide_eq_true_eq,
        List.all_eq_true] at h
      exact .inr ⟨line, by simpa using h.2.1, h.2.2, hname⟩
    · exact .inl (.of_isSafe h hbreak)
  · rintro (h | h)
    · exact h.isSafe
    · exact h.isSafe

/-- What ends in a text that ends in no line break ends in none itself. -/
theorem getLast?_of_endsIn {suffix name : String} (h : endsIn suffix name = true)
    (hsuffix : suffix.toList ≠ []) : name.toList.getLast? = suffix.toList.getLast? := by
  obtain ⟨front, hfront⟩ := List.isSuffixOf_iff_suffix.mp h
  rw [← hfront, List.getLast?_append, List.getLast?_eq_some_getLast hsuffix, Option.some_or]

/-- After the artifact a name goes on over the safe alphabet. -/
theorem isSafeChar_of_mem_ending (hr : reading.Placed) (hc : counter < 100) :
    ∀ x ∈ '.' :: Stamp.writeChars reading ++ writeCounter counter ++ backupSuffix.toList,
      isSafeChar x = true := by
  have hplaces {n : Nat} (hn : n < 100) : ∀ x ∈ Stamp.twoPlaces n, isSafeChar x = true :=
    fun x hx => Stamp.isSafeChar_of_place (Stamp.isDigit_twoPlaces hn x hx)
  have hyear : ∀ x ∈ Nat.toDigits 10 reading.year, isSafeChar x = true := fun x hx =>
    Stamp.isSafeChar_of_place (Nat.isDigit_of_mem_toDigits (by decide) (by decide) hx)
  have hcounter : ∀ x ∈ writeCounter counter, isSafeChar x = true := by
    unfold writeCounter
    split
    · simp
    · exact List.forall_mem_cons.mpr ⟨by decide, hplaces hc⟩
  have hsuffix : ∀ x ∈ backupSuffix.toList, isSafeChar x = true := List.all_eq_true.mp (by decide)
  simp only [Stamp.writeChars, List.cons_append, List.forall_mem_cons, List.forall_mem_append]
  exact ⟨by decide, ⟨⟨⟨⟨⟨⟨hyear, hplaces hr.month⟩, hplaces hr.day⟩, by decide, hplaces hr.hour⟩,
    hplaces hr.minute⟩, hplaces hr.second⟩, hcounter⟩, hsuffix⟩

/-- The name of a backup passes as safe if the artifact is over the safe alphabet. -/
theorem isSafe_writeBackup_iff (hr : reading.Placed) (hc : counter < 100) :
    isSafe (writeBackup artifact reading counter) = true ↔
      ∀ x ∈ artifact.toList, isSafeChar x = true := by
  have hends := getLast?_of_endsIn (endsIn_writeBackup artifact reading counter) (by decide)
  have hsplit := toList_writeBackup artifact reading counter
  rw [List.append_assoc, List.append_assoc, ← List.append_assoc ('.' :: _)] at hsplit
  constructor
  · intro h x hx
    refine (Safe.of_isSafe h (by rw [hends]; decide)).chars x ?_
    rw [hsplit]
    exact List.mem_append_left _ hx
  · intro h
    refine Safe.isSafe ⟨?_, ?_, ?_, hsplit ▸ List.forall_mem_append.mpr
      ⟨h, isSafeChar_of_mem_ending hr hc⟩⟩ <;>
    · intro heq
      rw [heq] at hends
      exact absurd hends (by decide)

theorem safe_writeBackup (ha : Safe artifact) (hr : reading.Stampable) (hc : counter < 100) :
    Safe (writeBackup artifact reading counter) := by
  refine .of_isSafe ((isSafe_writeBackup_iff hr.placed hc).mpr ha.chars) ?_
  rw [getLast?_of_endsIn (endsIn_writeBackup artifact reading counter) (by decide)]
  decide

/-- Where all digits are of ASCII, so are those of the parts. -/
theorem backupOf_ascii_iff {name : String}
    (hdigits : ∀ x ∈ name.toList, Text.isDigit x = true → x.isDigit = true) :
    BackupOf Text.isDigit artifact name ↔ BackupOf Char.isDigit artifact name := by
  constructor
  · rintro ⟨parts, hparts, hartifact, hname⟩
    exact ⟨parts, hparts.narrow fun x hx => hdigits x (hname ▸ hx), hartifact, hname⟩
  · rintro ⟨parts, hparts, hartifact, hname⟩
    exact ⟨parts, hparts.mono fun x hx => Stamp.isDigit_of_place hx, hartifact, hname⟩

/-- The parts of the name of a backup. -/
def partsOf (artifact : String) (reading : Civil) (counter : Nat) : BackupParts :=
  ⟨artifact.toList, Stamp.writeChars reading,
    if counter = 0 then none else some (Stamp.twoPlaces counter)⟩

/-- The name is what its parts make up. -/
theorem text_partsOf (artifact : String) (reading : Civil) (counter : Nat) :
    (partsOf artifact reading counter).text = (writeBackup artifact reading counter).toList := by
  have hcounter : counterText (partsOf artifact reading counter).counter = writeCounter counter := by
    unfold partsOf writeCounter
    split <;> rfl
  rw [toList_writeBackup, BackupParts.text, BackupParts.body, hcounter]
  rfl

private theorem wellFormed_partsOf (hne : artifact ≠ "") (hline : '\n' ∉ artifact.toList)
    (hr : reading.Stampable) (hc : counter < 100) :
    (partsOf artifact reading counter).WellFormed Char.isDigit := by
  obtain ⟨date, time, heq, hdate, htime, hdigits, hdigits'⟩ := Stamp.writeChars_split hr
  refine ⟨fun hnil => hne (String.toList_eq_nil_iff.mp hnil), hline,
    ⟨date, time, heq, ⟨hdate, hdigits⟩, ⟨htime, hdigits'⟩⟩, fun places hplaces => ?_⟩
  obtain ⟨-, htwo⟩ := Option.ite_none_left_eq_some.mp hplaces
  rw [← Option.some.inj htwo]
  exact ⟨rfl, Stamp.isDigit_twoPlaces hc⟩

/-- A name that ends as those of backups do has no line break at its end. -/
theorem dropFinalBreak_writeBackup (artifact : String) (reading : Civil) (counter : Nat) :
    dropFinalBreak (writeBackup artifact reading counter).toList
      = (writeBackup artifact reading counter).toList := by
  rw [← text_partsOf, dropFinalBreak, if_neg (BackupParts.getLast?_text _)]

/-- The name of a backup is taken apart into what it was made of. -/
theorem parse?_writeBackup (hne : artifact ≠ "") (hline : '\n' ∉ artifact.toList)
    (hr : reading.Stampable) (hc : counter < 100) :
    parse? (writeBackup artifact reading counter) = some (partsOf artifact reading counter) := by
  rw [parse?_eq_some_iff, dropFinalBreak_writeBackup, text_partsOf]
  exact ⟨(wellFormed_partsOf hne hline hr hc).mono fun x hx => Stamp.isDigit_of_place hx, rfl⟩

/-- A backup is not named like what it is a backup of. -/
theorem writeBackup_ne (artifact : String) (reading : Civil) (counter : Nat) :
    writeBackup artifact reading counter ≠ artifact := by
  intro heq
  have hlength := congrArg (fun name => name.toList.length) heq
  simp [writeBackup] at hlength

/-- The name of a backup tells the artifact. -/
theorem artifactOf_writeBackup (ha : Safe artifact) (hr : reading.Stampable) (hc : counter < 100) :
    artifactOf (writeBackup artifact reading counter) = .ok artifact := by
  simp only [artifactOf, parse?_writeBackup ha.nonempty ha.line hr hc, partsOf,
    String.ofList_toList]

end Name
end ConfigSteward
