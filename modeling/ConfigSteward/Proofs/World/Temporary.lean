import ConfigSteward.Proofs.World.Folders

/-!
# Temporary files

A temporary file comes up at a vacant place under a hidden name that is longer than the name it is
made for. Whether one can be made depends only on which places are taken (`createTemp_again`), since
a tree has fewer entries than there are names to try.
-/
namespace ConfigSteward

theorem Path.text_parent_le {p : Path} (h : p.text.utf8ByteSize ≤ longestPath) :
    p.parent.text.utf8ByteSize ≤ longestPath := by
  have hbody : ("/".intercalate p.parts.dropLast).utf8ByteSize
      ≤ ("/".intercalate p.parts).utf8ByteSize := by
    rcases List.eq_nil_or_concat p.parts with hp | ⟨front, last, hp⟩
    · simp [hp]
    · by_cases hfront : front = []
      · simp [hp, hfront]
      · rw [hp, List.concat_eq_append, List.dropLast_concat,
          String.intercalate_append_of_ne_nil hfront (by simp)]
        simp only [String.utf8ByteSize_append]
        omega
  obtain ⟨lead, parts⟩ := p
  cases lead with
  | none =>
    have hparent : (parent ⟨.none, parts⟩).text
        = if parts.dropLast.isEmpty then "." else "/".intercalate parts.dropLast := rfl
    rw [hparent]
    by_cases hempty : parts.dropLast.isEmpty = true
    · rw [if_pos hempty]
      decide
    · have hparts : parts.isEmpty ≠ true := by
        intro hnil
        simp [List.isEmpty_iff.mp hnil] at hempty
      simp only [text, if_neg hparts] at h hbody
      rw [if_neg hempty]
      omega
  | one | two =>
    simp only [text, parent, String.utf8ByteSize_append] at h hbody ⊢
    omega

namespace World

variable {w v : World} {p folder temp : Path} {place : Place} {base : String} {n m : Nat}

/-- What a path ends at lies in the folder that the path without its last part leads to. -/
theorem split_of_walk (hw : w.Sound) (hwalk : w.tree.walk false w.here p = .ok place)
    (hne : w.tree.get? place ≠ some .folder) :
    p.parts = p.parent.parts ++ [p.name] ∧
      ∃ r, w.tree.walk true w.here p.parent = .ok r ∧ w.tree.get? r = some .folder ∧
        Tree.Plain p.name ∧ place = r ++ [p.name] := by
  obtain ⟨hlen, hleads⟩ := Tree.walk_eq_ok_iff.mp hwalk
  have hstart := Tree.get?_start hw.here p
  rcases List.eq_nil_or_concat p.parts with hp | ⟨front, last, hp⟩
  · rw [hp] at hleads
    exact absurd (hleads.unique .stop ▸ hstart) hne
  · rw [List.concat_eq_append] at hp
    rw [hp] at hleads
    obtain ⟨r, hr, hfolder, hend⟩ := hleads.unsnoc hw.tree hstart
    have hwalk : w.tree.walk true w.here p.parent = .ok r := by
      refine Tree.walk_eq_ok_iff.mpr ⟨Path.text_parent_le hlen, ?_⟩
      simpa [Path.parent, Path.start, hp] using hr
    have hname : p.name = last := by simp [Path.name, hp]
    rcases hend with ⟨-, hend⟩ | ⟨hplain, hend⟩
    · have hup : w.tree.get? r.dropLast = some .folder := by
        by_cases hnil : r = []
        · simp [hnil]
        · exact hw.tree r _ hnil hfolder
      exact absurd (hend ▸ hup) hne
    · refine ⟨?_, r, hwalk, hfolder, hname ▸ hplain, hname ▸ hend⟩
      rw [hname]
      simp [Path.parent, hp]

/-- A path that lands goes through the folder of its parent. -/
theorem Lands.split (h : w.Lands p place) (hw : w.Sound) :
    ∃ r, w.tree.walk true w.here p.parent = .ok r ∧ w.tree.get? r = some .folder ∧
      Tree.Plain p.name ∧ place = r ++ [p.name] := (split_of_walk hw h.walk h.ne_folder).2

theorem Lands.parts_eq (h : w.Lands p place) (hw : w.Sound) :
    p.parts = p.parent.parts ++ [p.name] := (split_of_walk hw h.walk h.ne_folder).1

theorem Lands.stands_parent (h : w.Lands p place) (hw : w.Sound) : w.Stands p.parent := by
  obtain ⟨r, hr, hfolder, -, -⟩ := h.split hw
  exact ⟨r, hr, hfolder⟩

private theorem length_tempName (base : String) (n : Nat) :
    base.toList.length + 2 < (tempName base n).toList.length := by
  simp only [tempName, String.toList_append, List.length_append]
  have hdot : ".".toList.length = 1 := rfl
  have hend : ".tmp".toList.length = 4 := rfl
  omega

theorem suffix_tempName (base : String) (n : Nat) :
    ".tmp".toList <:+ (tempName base n).toList := by
  simp only [tempName, String.toList_append]
  exact List.suffix_append _ _

theorem tempName_ne (base : String) (n : Nat) : base ≠ tempName base n := by
  intro h
  have hlen := length_tempName base n
  rw [← h] at hlen
  omega

theorem tempName_ne_up (base : String) (n : Nat) : tempName base n ≠ ".." := by
  intro h
  have hlen := length_tempName base n
  rw [h] at hlen
  have hup : "..".toList.length = 2 := rfl
  omega

private theorem tempName_inj (h : tempName base n = tempName base m) : n = m := by
  have hdigits := congrArg String.toList h
  simp only [tempName, String.toList_append, List.append_assoc, List.append_cancel_left_eq,
    String.toList_ofList] at hdigits
  rw [← List.append_assoc, ← List.append_assoc] at hdigits
  have hvalue := congrArg (Nat.ofDigitChars 10 · 0) (List.append_cancel_right hdigits)
  simpa [Nat.ofDigitChars_append, Nat.ofDigitChars_replicate_zero,
    Nat.ofDigitChars_ten_toDigits] using hvalue

private theorem walkFrom_ne_alreadyThere (t : Tree) (follow : Bool) (links : Nat) (p : Place)
    (names : List String) : t.walkFrom follow links p names ≠ .error .alreadyThere := by
  fun_induction Tree.walkFrom t follow links p names <;> simp_all

/-- A path is taken if it leads to an entry. -/
theorem taken_of_vacancy {a : String} {b : Option String}
    (h : w.vacancy p = .error ⟨.alreadyThere, a, b⟩) :
    ∃ place, w.tree.walk false w.here p = .ok place ∧ w.tree.get? place ≠ none := by
  unfold vacancy at h
  split at h
  · next cause hwalk =>
    simp only [fault, Except.error.injEq, Fault.mk.injEq] at h
    rw [h.1] at hwalk
    unfold Tree.walk at hwalk
    split at hwalk
    · cases hwalk
    · exact absurd hwalk (walkFrom_ne_alreadyThere _ _ _ _ _)
  · next place hwalk =>
    split at h
    · next hthere => exact ⟨place, hwalk, Option.isSome_iff_ne_none.mp hthere⟩
    · cases h

theorem vacancy_of_taken (hwalk : w.tree.walk false w.here p = .ok place)
    (hthere : w.tree.get? place ≠ none) : w.vacancy p = fault .alreadyThere p := by
  simp only [vacancy, hwalk, if_pos (Option.isSome_iff_ne_none.mpr hthere)]

private theorem tempTaken_iff : w.tempTaken p = true ↔ w.tree.pointsTo p.name = true ∨
    ∃ place, w.tree.walk false w.here p = .ok place ∧ w.tree.get? place ≠ none := by
  rw [tempTaken, Bool.or_eq_true]
  refine or_congr_right ⟨fun h => ?_, ?_⟩
  · split at h
    · next a b hvacancy => exact taken_of_vacancy hvacancy
    · cases h
  · rintro ⟨place, hwalk, hthere⟩
    rw [vacancy_of_taken hwalk hthere]
    rfl

/-- A temporary name is taken. -/
def TempTaken (w : World) (folder : Path) (base : String) (n : Nat) : Prop :=
  w.tempTaken (folder.child (tempName base n)) = true

/-- The name that is found, that all before it are taken, and that it is free if the search came to
an end before its tries did. -/
theorem freeTemp_spec (w : World) (folder : Path) (base : String) (n tries : Nat) :
    ∃ m, n ≤ m ∧ w.freeTemp folder base n tries = folder.child (tempName base m) ∧
      (∀ i, n ≤ i → i < m → w.TempTaken folder base i) ∧
      (m = n + tries ∨ ¬ w.TempTaken folder base m) := by
  induction tries generalizing n with
  | zero => exact ⟨n, Nat.le_refl n, rfl, fun i hi hi' => by omega, .inl rfl⟩
  | succ tries ih =>
    rw [freeTemp]
    split
    · next htaken =>
      obtain ⟨m, hm, heq, hall, hend⟩ := ih (n + 1)
      refine ⟨m, by omega, heq, fun i hi hi' => ?_, hend.imp_left fun hm => by omega⟩
      rcases Nat.eq_or_lt_of_le hi with rfl | hlt
      · exact htaken
      · exact hall i hlt hi'
    · next hfree =>
      exact ⟨n, Nat.le_refl n, rfl, fun i hi hi' => by omega, .inr (Bool.eq_false_iff.mp hfree)⟩

/-- A temporary file comes up at a vacant place, or nothing happens. -/
theorem createTemp_cases (hw : w.Sound) (folder : Path) (base : String) :
    (∃ n r temp, temp = (w.tempFolder folder).child (tempName base n) ∧
      w.Lands temp (r ++ [tempName base n]) ∧ w.tree.get? (r ++ [tempName base n]) = none ∧
      w.createTemp folder base = (.ok temp, { w with
        tree := w.tree.put (r ++ [tempName base n]) (.file [] privateMode .lately) })) ∨
    ∃ f, w.createTemp folder base = (.error f, w) := by
  obtain ⟨n, -, hname, -, -⟩ :=
    freeTemp_spec w (w.tempFolder folder) base (w.draw (w.tempFolder folder) base) w.tempTries
  rcases w.add_cases ((w.tempFolder folder).child (tempName base n))
    (.file [] privateMode .lately) with ⟨place, hlands, hnone, hadd⟩ | ⟨f, -, hadd⟩
  · left
    obtain ⟨r, -, -, -, rfl⟩ := hlands.split hw
    rw [Path.name_child] at hlands hnone hadd
    exact ⟨n, r, _, rfl, hlands, hnone, by simp only [createTemp, hname, hadd]⟩
  · exact .inr ⟨f, by simp only [createTemp, hname, hadd]⟩

/-- A taken name is that of an entry or one that an entry points to. -/
theorem mem_of_tempTaken (hw : w.Sound) (h : w.TempTaken folder base n) :
    tempName base n ∈ w.tree.entries.map (fun e => e.1.getLast?.getD "")
      ++ w.tree.entries.map fun e =>
        match e.2 with
        | .link target => (Path.ofText target).name
        | _ => "" := by
  rcases tempTaken_iff.mp h with hpoints | ⟨q, hwalk, hthere⟩
  · rw [Path.name_child] at hpoints
    obtain ⟨p, target, hlink, hname⟩ := Tree.pointsTo_iff.mp hpoints
    have hp : p ≠ [] := by
      rintro rfl
      simp at hlink
    exact List.mem_append_right _ (List.mem_map.mpr ⟨_, Tree.get?_mem hlink hp, hname⟩)
  · obtain ⟨r, -, -, ⟨hup, -⟩ | ⟨-, rfl⟩⟩ :=
      (Tree.walk_eq_ok_iff.mp hwalk).2.unsnoc hw.tree (Tree.get?_start hw.here _)
    · exact absurd hup (tempName_ne_up base n)
    · obtain ⟨e, hmem, heq⟩ := List.mem_map.mp (Tree.mem_entries_of_get? hthere (by simp))
      exact List.mem_append_left _ (List.mem_map.mpr ⟨e, hmem, by simp [heq]⟩)

/-- An entry takes two names at most. -/
theorem le_tempTries (hw : w.Sound) (htaken : ∀ i, n ≤ i → i < m → w.TempTaken folder base i) :
    m ≤ n + w.tempTries := by
  have hnodup : ((List.range' n (m - n)).map (tempName base)).Nodup :=
    List.pairwise_map.mpr ((List.pairwise_lt_range' (s := n)).imp
      fun hlt heq => Nat.ne_of_lt hlt (tempName_inj heq))
  have hlength := hnodup.length_le_of_subset fun name hname => by
    obtain ⟨i, hi, rfl⟩ := List.mem_map.mp hname
    obtain ⟨hle, hlt⟩ := List.mem_range'_1.mp hi
    exact mem_of_tempTaken hw (htaken i hle (by omega))
  simp only [List.length_map, List.length_range', List.length_append] at hlength
  rw [tempTries]
  omega

/-- The search ends at the first name that is free. -/
theorem freeTemp_least (hw : w.Sound) (folder : Path) (base : String) (n : Nat) :
    ∃ m, w.freeTemp folder base n w.tempTries = folder.child (tempName base m) ∧ n ≤ m ∧
      (∀ i, n ≤ i → i < m → w.TempTaken folder base i) ∧ ¬ w.TempTaken folder base m := by
  obtain ⟨m, hle, hname, hall, hend⟩ := freeTemp_spec w folder base n w.tempTries
  refine ⟨m, hname, hle, hall, fun htaken => ?_⟩
  have hm := hend.resolve_right fun hfree => hfree htaken
  -- With this name there would be one more than all entries take.
  have hall' (i : Nat) (hi : n ≤ i) (hi' : i < m + 1) : w.TempTaken folder base i := by
    rcases Nat.lt_succ_iff_lt_or_eq.mp hi' with hlt | rfl
    · exact hall i hi hlt
    · exact htaken
  have hlength := le_tempTries hw hall'
  omega

/-- No link points to a file of the name that a temporary file is given. -/
theorem createTemp_unpointed (hw : w.Sound) (h : w.createTemp folder base = (.ok temp, v)) :
    w.tree.pointsTo temp.name = false := by
  obtain ⟨m, hname, -, -, hfree⟩ :=
    freeTemp_least hw (w.tempFolder folder) base (w.draw (w.tempFolder folder) base)
  have htemp : temp = (w.tempFolder folder).child (tempName base m) := by
    rcases w.add_cases ((w.tempFolder folder).child (tempName base m))
      (.file [] privateMode .lately) with ⟨place, -, -, hadd⟩ | ⟨f, -, hadd⟩
    · simp only [createTemp, hname, hadd, Prod.mk.injEq, Except.ok.injEq] at h
      exact h.1.symm
    · simp only [createTemp, hname, hadd] at h
      cases h
  rw [htemp]
  exact Bool.eq_false_iff.mpr fun hpoints => hfree (tempTaken_iff.mpr (.inl hpoints))

/-- The search depends only on which names are taken. -/
theorem freeTemp_congr (hw : w.Sound) (hv : v.Sound)
    (htaken : ∀ n, v.TempTaken folder base n ↔ w.TempTaken folder base n) :
    v.freeTemp folder base n v.tempTries = w.freeTemp folder base n w.tempTries := by
  obtain ⟨m, hname, hle, hall, hfree⟩ := freeTemp_least hw folder base n
  obtain ⟨m', hname', hle', hall', hfree'⟩ := freeTemp_least hv folder base n
  have hm : m' = m := by
    rcases Nat.lt_trichotomy m' m with hlt | heq | hlt
    · exact absurd ((htaken m').mpr (hall m' hle' hlt)) hfree'
    · exact heq
    · exact absurd ((htaken m).mp (hall' m hle hlt)) hfree
  rw [hname, hname', hm]

/-- A temporary file can be made wherever it can be made while the same places are taken. -/
theorem createTemp_again (hw : w.Sound) (hv : v.Sound) (hhere : v.here = w.here)
    (hdraw : v.draw = w.draw)
    (hskeleton : ∀ q, v.tree.skeleton q = w.tree.skeleton q)
    (htaken : ∀ q, v.tree.get? q = none ↔ w.tree.get? q = none)
    (h : (w.createTemp folder base).1 = .ok temp) :
    ∃ temp', (v.createTemp folder base).1 = .ok temp' := by
  have hfolder : v.tempFolder folder = w.tempFolder folder := by
    rw [tempFolder, tempFolder, hhere]
  have hsame (n : Nat) : v.TempTaken (w.tempFolder folder) base n
      ↔ w.TempTaken (w.tempFolder folder) base n := by
    rw [TempTaken, TempTaken, tempTaken_iff, tempTaken_iff, Tree.pointsTo_congr hskeleton]
    refine or_congr_right (exists_congr fun q => and_congr ?_ (not_congr (htaken q)))
    rw [hhere]
    exact ⟨Tree.walk_mono (.of_eq fun q => (hskeleton q).symm), Tree.walk_mono (.of_eq hskeleton)⟩
  obtain ⟨m, -, hname, -, -⟩ := freeTemp_spec w (w.tempFolder folder) base
    (w.draw (w.tempFolder folder) base) w.tempTries
  have hname' := (freeTemp_congr hw hv hsame).trans hname
  rcases w.add_cases ((w.tempFolder folder).child (tempName base m))
    (.file [] privateMode .lately) with ⟨place, hlands, hnone, -⟩ | ⟨f, -, hadd⟩
  · have hfree := (hlands.of_skeleton hskeleton hhere).vacancy_eq ((htaken place).mpr hnone)
    refine ⟨(w.tempFolder folder).child (tempName base m), ?_⟩
    simp only [createTemp, hfolder, hdraw, hname', add, hfree]
  · simp only [createTemp, hname, hadd] at h
    cases h

end World
end ConfigSteward
