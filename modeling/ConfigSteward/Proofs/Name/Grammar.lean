import ConfigSteward.Name.Backup

/-!
# The grammar of the names of backups

The parts of a name make up a text, and a name is taken apart into parts exactly if they are well
formed and make it up. Which of its points and underscores part the name is settled by the number of
digits between them, so no name has parts of two kinds. The digits may be of any script, and one line
break at the end of a name is overlooked.
-/
namespace ConfigSteward.Name

/-- So many digits of a kind. -/
structure Digits (digit : Char → Bool) (count : Nat) (cs : List Char) : Prop where
  length : cs.length = count
  all : ∀ x ∈ cs, digit x = true

theorem Digits.mono {digit digit' : Char → Bool} {count : Nat} {cs : List Char}
    (h : Digits digit count cs) (himp : ∀ x, digit x = true → digit' x = true) :
    Digits digit' count cs := ⟨h.length, fun x hx => himp x (h.all x hx)⟩

theorem Digits.notMem {digit : Char → Bool} {count : Nat} {cs : List Char} {x : Char}
    (h : Digits digit count cs) (hx : digit x = false) : x ∉ cs :=
  fun hmem => Bool.eq_false_iff.mp hx (h.all x hmem)

/-- A counter as it stands in a name, after an underscore. -/
def counterText : Option (List Char) → List Char
  | none => []
  | some places => '_' :: places

namespace BackupParts

/-- What stands before the ending. -/
def body (parts : BackupParts) : List Char :=
  parts.artifact ++ '.' :: parts.stamp ++ counterText parts.counter

/-- The text that the parts make up. -/
def text (parts : BackupParts) : List Char := parts.body ++ backupSuffix.toList

/-- The number that the counter spells, nothing standing for zero. -/
def count (parts : BackupParts) : Nat := parts.counter.elim 0 Text.digitsValue

/-- The parts that a name has, with digits of the given kind: an artifact on one line, a stamp of
eight digits, an underscore and six digits, and a counter of two digits or none. -/
structure WellFormed (digit : Char → Bool) (parts : BackupParts) : Prop where
  artifact : parts.artifact ≠ []
  line : '\n' ∉ parts.artifact
  stamp : ∃ date time, parts.stamp = date ++ '_' :: time ∧ Digits digit 8 date ∧ Digits digit 6 time
  counter : ∀ places, parts.counter = some places → Digits digit 2 places

theorem WellFormed.mono {digit digit' : Char → Bool} {parts : BackupParts}
    (h : parts.WellFormed digit) (himp : ∀ x, digit x = true → digit' x = true) :
    parts.WellFormed digit' := by
  obtain ⟨date, time, hstamp, hdate, htime⟩ := h.stamp
  exact ⟨h.artifact, h.line, ⟨date, time, hstamp, hdate.mono himp, htime.mono himp⟩,
    fun places hplaces => (h.counter places hplaces).mono himp⟩

/-- The parts are well formed in the digits of a smaller kind if the text has none but these. -/
theorem WellFormed.narrow {digit digit' : Char → Bool} {parts : BackupParts}
    (h : parts.WellFormed digit) (hnarrow : ∀ x ∈ parts.text, digit x = true → digit' x = true) :
    parts.WellFormed digit' := by
  obtain ⟨date, time, hstamp, hdate, htime⟩ := h.stamp
  refine ⟨h.artifact, h.line, ⟨date, time, hstamp, ⟨hdate.length, fun x hx => ?_⟩,
    ⟨htime.length, fun x hx => ?_⟩⟩, fun places hplaces => ⟨(h.counter places hplaces).length,
      fun x hx => ?_⟩⟩
  · exact hnarrow x (by simp [text, body, hstamp, hx]) (hdate.all x hx)
  · exact hnarrow x (by simp [text, body, hstamp, hx]) (htime.all x hx)
  · exact hnarrow x (by simp [text, body, hplaces, counterText, hx])
      ((h.counter places hplaces).all x hx)

/-- A mark that is no digit and no underscore does not stand behind the artifact's point. -/
theorem WellFormed.notMem {digit : Char → Bool} {parts : BackupParts} {x : Char}
    (h : parts.WellFormed digit) (hdigit : digit x = false) (hmark : x ≠ '_') :
    x ∉ parts.stamp ++ counterText parts.counter := by
  obtain ⟨date, time, hstamp, hdate, htime⟩ := h.stamp
  have hplaces : x ∉ counterText parts.counter := by
    rcases hcounter : parts.counter with _ | places
    · simp [counterText]
    · simp [counterText, hmark, (h.counter places hcounter).notMem hdigit]
  simp [hstamp, hmark, hdate.notMem hdigit, htime.notMem hdigit, hplaces]

theorem getLast?_text (parts : BackupParts) : parts.text.getLast? ≠ some '\n' := by
  have hlast : backupSuffix.toList.getLast? = some 'p' := by decide
  rw [text, List.getLast?_append, hlast, Option.some_or]
  decide

end BackupParts

variable {name artifact : String} {body cs : List Char} {counter : Option (List Char)}
  {parts : BackupParts}

/-! ### The tests on the parts -/

private theorem isArtifact_iff : isArtifact cs = true ↔ cs ≠ [] ∧ '\n' ∉ cs := by
  simp [isArtifact]

theorem isStamp_iff : isStamp cs = true ↔ ∃ date time, cs = date ++ '_' :: time ∧
    Digits Text.isDigit 8 date ∧ Digits Text.isDigit 6 time := by
  constructor
  · intro h
    simp only [isStamp, Bool.and_eq_true, decide_eq_true_eq, List.all_eq_true] at h
    obtain ⟨⟨⟨hlength, hdate⟩, hmark⟩, htime⟩ := h
    have hlt : 8 < cs.length := by omega
    have hcut : cs = cs.take 8 ++ '_' :: cs.drop 9 := by
      rw [List.getElem?_eq_getElem hlt] at hmark
      rw [← Option.some.inj hmark, ← List.drop_eq_getElem_cons hlt, List.take_append_drop]
    exact ⟨cs.take 8, cs.drop 9, hcut, ⟨by rw [List.length_take]; omega, hdate⟩,
      ⟨by rw [List.length_drop]; omega, htime⟩⟩
  · rintro ⟨date, time, rfl, hdate, htime⟩
    have htake : (date ++ '_' :: time).take 8 = date := List.take_left' hdate.length
    have hdrop : (date ++ '_' :: time).drop 9 = time := by
      rw [← List.singleton_append, ← List.append_assoc]
      exact List.drop_left' (by simp [hdate.length])
    have hmark : (date ++ '_' :: time)[8]? = some '_' := by
      rw [List.getElem?_append_right (Nat.le_of_eq hdate.length), hdate.length]
      rfl
    simp only [isStamp, htake, hdrop, hmark, Bool.and_eq_true, decide_eq_true_eq,
      List.all_eq_true]
    refine ⟨⟨⟨?_, hdate.all⟩, trivial⟩, htime.all⟩
    simp [hdate.length, htime.length]

private theorem length_of_isStamp (h : isStamp cs = true) : cs.length = 15 := by
  simp only [isStamp, Bool.and_eq_true, decide_eq_true_eq] at h
  exact h.1.1.1

private theorem isCounter_iff :
    isCounter cs = true ↔ ∃ places, cs = '_' :: places ∧ Digits Text.isDigit 2 places := by
  constructor
  · intro h
    simp only [isCounter, Bool.and_eq_true, decide_eq_true_eq, List.all_eq_true] at h
    obtain ⟨⟨hlength, hhead⟩, hdigits⟩ := h
    obtain ⟨places, rfl⟩ := List.head?_eq_some_iff.mp hhead
    exact ⟨places, rfl, Nat.succ.inj hlength, hdigits⟩
  · rintro ⟨places, rfl, hlength, hdigits⟩
    simpa [isCounter, hlength] using hdigits

theorem BackupParts.wellFormed_iff : parts.WellFormed Text.isDigit ↔
    isArtifact parts.artifact = true ∧ isStamp parts.stamp = true ∧
      ∀ places, parts.counter = some places → Digits Text.isDigit 2 places := by
  rw [isArtifact_iff, isStamp_iff]
  exact ⟨fun h => ⟨⟨h.artifact, h.line⟩, h.stamp, h.counter⟩,
    fun ⟨⟨hne, hline⟩, hstamp, hcounter⟩ => ⟨hne, hline, hstamp, hcounter⟩⟩

/-! ### Taking names apart -/

private theorem splitStamp_eq_some_iff : splitStamp body counter = some parts ↔
    body = parts.artifact ++ '.' :: parts.stamp ∧ isStamp parts.stamp = true ∧
      isArtifact parts.artifact = true ∧ counter = parts.counter := by
  constructor
  · intro h
    unfold splitStamp at h
    dsimp only at h
    split at h
    · next stamp hdrop =>
      obtain ⟨hform, hparts⟩ := Option.ite_none_right_eq_some.mp h
      obtain ⟨hstamp, hartifact⟩ := Bool.and_eq_true_iff.mp hform
      obtain rfl := Option.some.inj hparts
      exact ⟨by rw [← hdrop, List.take_append_drop], hstamp, hartifact, rfl⟩
    · cases h
  · rintro ⟨rfl, hstamp, hartifact, rfl⟩
    have hlength : (parts.artifact ++ '.' :: parts.stamp).length - 16 = parts.artifact.length := by
      rw [List.length_append, List.length_cons, length_of_isStamp hstamp, Nat.add_sub_cancel]
    unfold splitStamp
    dsimp only
    rw [hlength, List.take_left, List.drop_left]
    simp only [hstamp, hartifact, Bool.and_self, if_true]

/-- The last three characters of a stamp are digits and no counter. -/
theorem isCounter_end_of_stamp (front : List Char) (h : isStamp cs = true) :
    isCounter ((front ++ cs).drop ((front ++ cs).length - 3)) = false := by
  obtain ⟨date, time, rfl, -, htime⟩ := isStamp_iff.mp h
  have hsplit : front ++ (date ++ '_' :: time)
      = (front ++ date ++ '_' :: time.take 3) ++ time.drop 3 := by simp
  have hend : (front ++ (date ++ '_' :: time)).drop ((front ++ (date ++ '_' :: time)).length - 3)
      = time.drop 3 := by
    rw [hsplit]
    refine List.drop_left' ?_
    simp only [List.length_append, List.length_drop, htime.length]
    omega
  rw [hend, Bool.eq_false_iff]
  intro hcounter
  obtain ⟨places, hplaces, -⟩ := isCounter_iff.mp hcounter
  have hmem : '_' ∈ time := List.mem_of_mem_drop (hplaces ▸ List.mem_cons_self)
  exact htime.notMem (by decide) hmem

private theorem splitBody_eq_some_iff :
    splitBody body = some parts ↔ parts.WellFormed Text.isDigit ∧ body = parts.body := by
  rw [BackupParts.wellFormed_iff]
  constructor
  · intro h
    unfold splitBody at h
    dsimp only at h
    split at h
    · next hcounter =>
      obtain ⟨places, htail, hdigits⟩ := isCounter_iff.mp hcounter
      obtain ⟨hfront, hstamp, hartifact, hparts⟩ := splitStamp_eq_some_iff.mp h
      rw [htail, List.tail_cons] at hparts
      refine ⟨⟨hartifact, hstamp, fun places' hplaces => ?_⟩, ?_⟩
      · rw [← hparts] at hplaces
        exact Option.some.inj hplaces ▸ hdigits
      · rw [BackupParts.body, ← hparts, counterText, ← hfront, ← htail, List.take_append_drop]
    · obtain ⟨rfl, hstamp, hartifact, hparts⟩ := splitStamp_eq_some_iff.mp h
      refine ⟨⟨hartifact, hstamp, fun places hplaces => ?_⟩, ?_⟩
      · cases hparts.trans hplaces
      · rw [BackupParts.body, ← hparts, counterText, List.append_nil]
  · rintro ⟨⟨hartifact, hstamp, hcounter⟩, rfl⟩
    unfold splitBody BackupParts.body
    dsimp only
    rcases hparts : parts.counter with _ | places
    · have hend := isCounter_end_of_stamp (parts.artifact ++ ['.']) hstamp
      rw [List.append_assoc, List.singleton_append] at hend
      rw [counterText, List.append_nil, hend]
      exact splitStamp_eq_some_iff.mpr ⟨rfl, hstamp, hartifact, hparts.symm⟩
    · have hdigits := hcounter places hparts
      have hcut : (parts.artifact ++ '.' :: parts.stamp ++ counterText (some places)).length - 3
          = (parts.artifact ++ '.' :: parts.stamp).length := by
        rw [List.length_append, counterText, List.length_cons, hdigits.length, Nat.add_sub_cancel]
      have htest : isCounter (counterText (some places)) = true :=
        isCounter_iff.mpr ⟨places, rfl, hdigits⟩
      rw [hcut, List.drop_left, List.take_left, if_pos htest]
      exact splitStamp_eq_some_iff.mpr ⟨rfl, hstamp, hartifact, hparts.symm⟩

/-- A name is taken apart into the well-formed parts that make it up. -/
theorem parse?_eq_some_iff : parse? name = some parts ↔
    parts.WellFormed Text.isDigit ∧ dropFinalBreak name.toList = parts.text := by
  have hlength : backupSuffix.toList.length = 7 := by decide
  unfold parse? BackupParts.text
  dsimp only
  constructor
  · intro h
    obtain ⟨hends, hsplit⟩ := Option.ite_none_right_eq_some.mp h
    obtain ⟨front, hfront⟩ := List.isSuffixOf_iff_suffix.mp hends
    rw [← hfront, List.length_append, hlength, Nat.add_sub_cancel, List.take_left] at hsplit
    obtain ⟨hparts, rfl⟩ := splitBody_eq_some_iff.mp hsplit
    exact ⟨hparts, hfront.symm⟩
  · rintro ⟨hparts, htext⟩
    rw [htext, if_pos (List.isSuffixOf_iff_suffix.mpr (List.suffix_append _ _)), List.length_append,
      hlength, Nat.add_sub_cancel, List.take_left]
    exact splitBody_eq_some_iff.mpr ⟨hparts, rfl⟩

/-! ### Names of the grammar -/

/-- The name is that of a backup of the artifact, in digits of the given kind. -/
def BackupOf (digit : Char → Bool) (artifact name : String) : Prop :=
  ∃ parts : BackupParts, parts.WellFormed digit ∧ parts.artifact = artifact.toList ∧
    name.toList = parts.text

/-- Where a text does not end in a line break, one behind it is overlooked and no more. -/
theorem dropFinalBreak_eq_iff {text : List Char} (h : text.getLast? ≠ some '\n') :
    dropFinalBreak cs = text ↔ cs = text ∨ cs = text ++ ['\n'] := by
  unfold dropFinalBreak
  constructor
  · intro hdrop
    split at hdrop
    · next hbreak =>
      obtain ⟨front, rfl⟩ := List.getLast?_eq_some_iff.mp hbreak
      rw [List.dropLast_concat] at hdrop
      exact .inr (by rw [hdrop])
    · exact .inl hdrop
  · rintro (rfl | rfl)
    · rw [if_neg h]
    · simp

theorem artifactOf_eq_ok_iff_parts : artifactOf name = .ok artifact ↔
    ∃ parts : BackupParts, (parts.WellFormed Text.isDigit ∧
      dropFinalBreak name.toList = parts.text) ∧ parts.artifact = artifact.toList := by
  simp only [← parse?_eq_some_iff]
  rw [artifactOf]
  rcases parse? name with _ | parts
  · simp
  · simp [String.ext_iff]

/-- The artifact is told by the names of its backups and by these with a line break behind them. -/
theorem artifactOf_eq_ok_iff : artifactOf name = .ok artifact ↔
    BackupOf Text.isDigit artifact name ∨
      ∃ front, BackupOf Text.isDigit artifact front ∧ name = front ++ "\n" := by
  simp only [artifactOf_eq_ok_iff_parts, dropFinalBreak_eq_iff (BackupParts.getLast?_text _)]
  constructor
  · rintro ⟨parts, ⟨hparts, hname | hname⟩, hartifact⟩
    · exact .inl ⟨parts, hparts, hartifact, hname⟩
    · refine .inr ⟨String.ofList parts.text, ⟨parts, hparts, hartifact, String.toList_ofList⟩, ?_⟩
      rw [String.ext_iff, hname, String.toList_append, String.toList_ofList]
      rfl
  · rintro (⟨parts, hparts, hartifact, hname⟩ | ⟨front, ⟨parts, hparts, hartifact, hfront⟩, rfl⟩)
    · exact ⟨parts, ⟨hparts, .inl hname⟩, hartifact⟩
    · refine ⟨parts, ⟨hparts, .inr ?_⟩, hartifact⟩
      rw [String.toList_append, hfront]
      rfl

theorem artifactOf_refuses {refusal : Refusal} (h : artifactOf name = .error refusal) :
    refusal = .invalidName ("Invalid backup name: " ++ name) := by
  unfold artifactOf at h
  split at h
  · cases h
  · exact (Except.error.inj h).symm

end ConfigSteward.Name
