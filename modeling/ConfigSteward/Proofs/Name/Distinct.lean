import ConfigSteward.Proofs.Name.Order

/-!
# Names of backups are told apart

The last point before the ending of a backup's name stands between the artifact and the stamp, since
neither a stamp nor a counter has a point. So one name belongs to one artifact, one stamp and one
counter, whatever points, digits and underscores the artifact's own name has and in whatever year the
backup was made.
-/
namespace ConfigSteward

section
variable {α : Type} {mark : α} {front front' rest rest' : List α}

/-- Lists that agree are cut alike at their first mark. -/
theorem cut_first (h : front ++ mark :: rest = front' ++ mark :: rest') (hfront : mark ∉ front)
    (hfront' : mark ∉ front') : front = front' ∧ rest = rest' := by
  induction front generalizing front' with
  | nil =>
    cases front' with
    | nil => exact ⟨rfl, (List.cons.inj h).2⟩
    | cons x front' => exact absurd (List.cons.inj h).1 (List.ne_of_not_mem_cons hfront')
  | cons x front ih =>
    cases front' with
    | nil => exact absurd (List.cons.inj h).1.symm (List.ne_of_not_mem_cons hfront)
    | cons x' front' =>
      obtain ⟨rfl, htail⟩ := List.cons.inj h
      obtain ⟨rfl, hrest⟩ := ih htail (List.not_mem_of_not_mem_cons hfront)
        (List.not_mem_of_not_mem_cons hfront')
      exact ⟨rfl, hrest⟩

/-- Lists that agree are cut alike at their last mark. -/
theorem cut_last (h : front ++ mark :: rest = front' ++ mark :: rest') (hrest : mark ∉ rest)
    (hrest' : mark ∉ rest') : front = front' ∧ rest = rest' := by
  have hreverse := congrArg List.reverse h
  simp only [List.reverse_append, List.reverse_cons, List.append_assoc, List.singleton_append]
    at hreverse
  obtain ⟨htail, hhead⟩ := cut_first hreverse (by simpa using hrest) (by simpa using hrest')
  exact ⟨List.reverse_injective hhead, List.reverse_injective htail⟩

end

namespace Stamp

private theorem notMem_twoPlaces (n : Nat) : '.' ∉ twoPlaces n ∧ '_' ∉ twoPlaces n := by
  have hpoint (n : Nat) : '.' ≠ Nat.digitChar n := (Nat.digitChar_ne '.' (by decide)).symm
  have hunderscore (n : Nat) : '_' ≠ Nat.digitChar n := (Nat.digitChar_ne '_' (by decide)).symm
  simp [twoPlaces, hpoint, hunderscore]

private theorem point_notMem_toDigits (n : Nat) : '.' ∉ Nat.toDigits 10 n := fun hpoint =>
  absurd (Nat.isDigit_of_mem_toDigits (by decide) (by decide) hpoint) (by decide)

/-- A stamp is cut at its underscore, and the time after it has six characters. The date before it has
four more than the year. -/
theorem writeChars_cut (c : Civil) : ∃ date time, writeChars c = date ++ '_' :: time ∧
    '_' ∉ date ∧ '.' ∉ date ∧ '.' ∉ time ∧ time.length = 6 ∧
      date.length = (Nat.toDigits 10 c.year).length + 4 := by
  refine ⟨Nat.toDigits 10 c.year ++ twoPlaces c.month ++ twoPlaces c.day,
    twoPlaces c.hour ++ twoPlaces c.minute ++ twoPlaces c.second, by simp [writeChars], ?_, ?_, ?_,
    rfl, by simp [twoPlaces]⟩
  · simp [notMem_twoPlaces]
  · simp [notMem_twoPlaces, point_notMem_toDigits]
  · simp [notMem_twoPlaces]

private theorem twoPlaces_inj {m n : Nat} (hm : m < 100) (hn : n < 100) (h : twoPlaces m = twoPlaces n) :
    m = n := by
  simp only [twoPlaces, List.cons.injEq, and_true] at h
  have htens := (digitChar_inj (m / 10) (by omega) (n / 10) (by omega)).mp h.1
  have hones := (digitChar_inj (m % 10) (by omega) (n % 10) (by omega)).mp h.2
  omega

private theorem toDigits_inj {m n : Nat} (h : Nat.toDigits 10 m = Nat.toDigits 10 n) : m = n := by
  rw [← Nat.ofDigitChars_ten_toDigits (n := m), h, Nat.ofDigitChars_ten_toDigits]

/-- A stamp tells the second that it was written for, whatever its year. -/
theorem write_inj {a b : Civil} (ha : a.Dated) (hb : b.Dated) (h : write a = write b) : a = b := by
  obtain ⟨year, month, day, hour, minute, second⟩ := a
  obtain ⟨year', month', day', hour', minute', second'⟩ := b
  obtain ⟨-, hmonth, hday, hhour, hminute, hsecond⟩ := ha
  obtain ⟨-, hmonth', hday', hhour', hminute', hsecond'⟩ := hb
  have hdays := (Civil.daysInMonth_bounds year month).2
  have hdays' := (Civil.daysInMonth_bounds year' month').2
  have hchars := String.ofList_injective h
  simp only [writeChars] at *
  obtain ⟨hchars, hseconds⟩ := List.append_inj' hchars rfl
  obtain ⟨hchars, hminutes⟩ := List.append_inj' hchars rfl
  obtain ⟨hchars, hhours⟩ := List.append_inj' hchars rfl
  obtain ⟨hchars, hdates⟩ := List.append_inj' hchars rfl
  obtain ⟨hyears, hmonths⟩ := List.append_inj' hchars rfl
  obtain rfl := toDigits_inj hyears
  obtain rfl := twoPlaces_inj (by omega) (by omega) hmonths
  obtain rfl := twoPlaces_inj (by omega) (by omega) hdates
  obtain rfl := twoPlaces_inj (by omega) (by omega) (List.cons.inj hhours).2
  obtain rfl := twoPlaces_inj (by omega) (by omega) hminutes
  obtain rfl := twoPlaces_inj (by omega) (by omega) hseconds
  rfl

end Stamp

namespace Name

variable {artifact artifact' : String} {reading reading' : Civil} {counter counter' : Nat}

private theorem point_notMem_writeCounter (counter : Nat) : '.' ∉ writeCounter counter := by
  unfold writeCounter
  split
  · simp
  · simp [Stamp.notMem_twoPlaces]

private theorem point_notMem_writeChars (reading : Civil) : '.' ∉ Stamp.writeChars reading := by
  obtain ⟨date, time, heq, -, hdate, htime, -⟩ := Stamp.writeChars_cut reading
  simp [heq, hdate, htime]

/-- Backups that share their name share their artifact, their stamp and their counter. -/
theorem eq_of_writeBackup_eq
    (h : writeBackup artifact reading counter = writeBackup artifact' reading' counter') :
    artifact = artifact' ∧ Stamp.write reading = Stamp.write reading' ∧
      writeCounter counter = writeCounter counter' := by
  have hname := congrArg String.toList h
  rw [toList_writeBackup, toList_writeBackup, List.append_left_inj, List.append_assoc,
    List.append_assoc, List.cons_append, List.cons_append] at hname
  obtain ⟨hartifact, htold⟩ := cut_last hname
    (by simp [point_notMem_writeChars, point_notMem_writeCounter])
    (by simp [point_notMem_writeChars, point_notMem_writeCounter])
  obtain ⟨date, time, hstamp, hdate, -, -, htime, -⟩ := Stamp.writeChars_cut reading
  obtain ⟨date', time', hstamp', hdate', -, -, htime', -⟩ := Stamp.writeChars_cut reading'
  rw [hstamp, hstamp', List.append_assoc, List.append_assoc, List.cons_append, List.cons_append]
    at htold
  obtain ⟨rfl, htail⟩ := cut_first htold hdate hdate'
  obtain ⟨rfl, hcounter⟩ := List.append_inj htail (htime.trans htime'.symm)
  exact ⟨String.toList_inj.mp hartifact, congrArg String.ofList (hstamp.trans hstamp'.symm), hcounter⟩

theorem writeCounter_inj (hc : counter < 100) (hc' : counter' < 100)
    (h : writeCounter counter = writeCounter counter') : counter = counter' := by
  unfold writeCounter at h
  split at h <;> split at h
  · omega
  · cases h
  · cases h
  · exact Stamp.twoPlaces_inj hc hc' (List.cons.inj h).2

theorem count_partsOf (hc : counter < 100) : (partsOf artifact reading counter).count = counter := by
  unfold partsOf BackupParts.count
  dsimp only
  split
  · next hzero => exact hzero.symm
  · exact Stamp.digitsValue_twoPlaces hc

/-- The name of a backup tells its artifact if that is one line and the year has four digits, and tells
no artifact otherwise. -/
theorem artifactOf_writeBackup_iff (hr : reading.Valid) (hc : counter < 100) :
    artifactOf (writeBackup artifact reading counter) = .ok artifact' ↔
      artifact' = artifact ∧ artifact ≠ "" ∧ '\n' ∉ artifact.toList ∧ 1000 ≤ reading.year := by
  constructor
  · intro h
    obtain ⟨parts, ⟨hparts, htext⟩, hartifact⟩ := artifactOf_eq_ok_iff_parts.mp h
    obtain ⟨date, time, hstamp, hdate, -⟩ := hparts.stamp
    rw [dropFinalBreak_writeBackup, toList_writeBackup, BackupParts.text, List.append_left_inj,
      BackupParts.body, List.append_assoc, List.append_assoc, List.cons_append, List.cons_append]
      at htext
    obtain ⟨hfront, htold⟩ := cut_last htext
      (by simp [point_notMem_writeChars, point_notMem_writeCounter])
      (hparts.notMem (by decide) (by decide))
    obtain ⟨date', time', hstamp', hunderscore, -, -, -, hlength⟩ := Stamp.writeChars_cut reading
    rw [hstamp, hstamp', List.append_assoc, List.append_assoc, List.cons_append, List.cons_append]
      at htold
    obtain ⟨rfl, -⟩ := cut_first htold hunderscore (hdate.notMem (by decide))
    have hyear := mt (Nat.length_toDigits_le_iff (b := 10) (n := reading.year) (k := 3) (by decide)
      (by decide)).mpr (by have := hdate.length; omega)
    refine ⟨String.toList_inj.mp (hartifact.symm.trans hfront.symm), ?_, hfront ▸ hparts.line, by omega⟩
    rintro rfl
    exact hparts.artifact hfront.symm
  · rintro ⟨rfl, hne, hline, hyear⟩
    rw [artifactOf, parse?_writeBackup hne hline (hr.stampable hyear) hc]
    exact congrArg Except.ok String.ofList_toList

/-! ### How long the names are -/

theorem length_writeCounter_le (counter : Nat) : (writeCounter counter).length ≤ 3 := by
  unfold writeCounter
  split <;> simp [Stamp.twoPlaces]

/-- A name takes one byte for each character after the artifact. -/
theorem utf8ByteSize_writeBackup (artifact : String) (hr : reading.Dated) (hc : counter < 100) :
    (writeBackup artifact reading counter).utf8ByteSize = artifact.utf8ByteSize
      + (Nat.toDigits 10 reading.year).length + (writeCounter counter).length + 19 := by
  have hsplit : writeBackup artifact reading counter = artifact ++ String.ofList
      ('.' :: Stamp.writeChars reading ++ writeCounter counter ++ backupSuffix.toList) := by
    rw [writeBackup, List.append_assoc, List.append_assoc, String.ofList_append, String.ofList_toList]
    simp
  have hlength : backupSuffix.toList.length = 7 := by decide
  rw [hsplit, String.utf8ByteSize_append,
    utf8ByteSize_ofList_of_safe (isSafeChar_of_mem_ending hr.placed hc)]
  simp only [Stamp.writeChars, Stamp.twoPlaces, List.length_append, List.length_cons, List.length_nil,
    hlength]
  omega

end Name
end ConfigSteward
