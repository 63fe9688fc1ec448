import ConfigSteward.Proofs.Files.Written
import ConfigSteward.Proofs.Site.Targets

/-!
# Names that stand for server files

A name may be given for a server file if it is safe and more than the ending of server files. It then
stands for one file, itself or itself with the ending, and two names stand for the same file only if
they differ by that ending.
-/
namespace ConfigSteward.Name

variable {name name' file : String}

/-- What can be given as the name of a server file. -/
structure Acceptable (name : String) : Prop extends Safe name where
  noSuffix : name ≠ serverSuffix

private theorem withServerSuffix_of_not_endsIn (h : ¬ endsIn serverSuffix name = true) :
    withServerSuffix name = name ++ serverSuffix := if_neg h

namespace Acceptable

/-- The file's name goes on before its ending. -/
theorem length_lt (h : Acceptable name) : 5 < (withServerSuffix name).toList.length := by
  have hlength : serverSuffix.toList.length = 5 := rfl
  by_cases hends : endsIn serverSuffix name = true
  · rw [withServerSuffix_of_endsIn hends]
    obtain ⟨front, hfront⟩ := List.isSuffixOf_iff_suffix.mp hends
    have hne : front ≠ [] := by
      rintro rfl
      exact h.noSuffix (String.toList_inj.mp hfront.symm)
    have hpos := List.length_pos_iff.mpr hne
    rw [← hfront, List.length_append, hlength]
    omega
  · have hne : name.toList ≠ [] := fun hnil => h.nonempty (String.toList_eq_nil_iff.mp hnil)
    have hpos := List.length_pos_iff.mpr hne
    rw [withServerSuffix_of_not_endsIn hends, String.toList_append, List.length_append, hlength]
    omega

private theorem suffixed_chars (h : Acceptable name) :
    ∀ x ∈ (withServerSuffix name).toList, isSafeChar x = true := by
  by_cases hends : endsIn serverSuffix name = true
  · rw [withServerSuffix_of_endsIn hends]
    exact h.chars
  · rw [withServerSuffix_of_not_endsIn hends, String.toList_append]
    exact List.forall_mem_append.mpr ⟨h.chars, List.all_eq_true.mp (by decide)⟩

/-- The file has a name that could be given for it. -/
theorem suffixed (h : Acceptable name) : Acceptable (withServerSuffix name) := by
  have hlong {short : String} (hshort : short.toList.length ≤ 5) : withServerSuffix name ≠ short := by
    rintro heq
    have hlt := h.length_lt
    rw [heq] at hlt
    omega
  exact ⟨⟨hlong (by decide), hlong (by decide), hlong (by decide), h.suffixed_chars⟩, hlong (by decide)⟩

private theorem isServerFile_suffixed (h : Acceptable name) :
    isServerFile (withServerSuffix name) = true := by
  simp only [isServerFile, h.suffixed.dropFinalBreak_eq, Bool.and_eq_true, decide_eq_true_eq,
    List.all_eq_true]
  exact ⟨⟨h.suffixed_chars, endsIn_withServerSuffix name⟩, h.length_lt⟩

private theorem normalizeServer_eq (h : Acceptable name) :
    normalizeServer (some name) = .ok (withServerSuffix name) := by
  have hplain : ¬ (decide (name = ".") || decide (name = "..")) = true := by simp [h.noDot, h.noUp]
  simp only [normalizeServer, if_neg h.nonempty, if_neg hplain, h.suffixed.isSafe, h.isServerFile_suffixed,
    Bool.and_self, if_true]

end Acceptable

private theorem acceptable_of_normalizeServer (h : normalizeServer (some name) = .ok file) :
    Acceptable name := by
  obtain ⟨hsafe, -, hserver⟩ := normalizeServer_spec h
  rw [normalizeServer] at h
  split at h
  · cases h
  next hne =>
  split at h
  · cases h
  next hplain =>
  obtain rfl : withServerSuffix name = file := by
    dsimp only at h
    split at h
    · exact Except.ok.inj h
    · cases h
  simp only [Bool.or_eq_true, decide_eq_true_eq, not_or] at hplain
  refine ⟨⟨hne, hplain.1, hplain.2, fun x hx => hsafe.chars x ?_⟩, ?_⟩
  · by_cases hends : endsIn serverSuffix name = true
    · rwa [withServerSuffix_of_endsIn hends]
    · rw [withServerSuffix_of_not_endsIn hends, String.toList_append]
      exact List.mem_append_left _ hx
  · rintro rfl
    exact absurd hserver (by decide)

/-- Names stand for the same file if they are the same up to the ending that may be left out. -/
theorem withServerSuffix_eq_iff : withServerSuffix name = withServerSuffix name' ↔ name = name' ∨
    name = name' ++ serverSuffix ∧ ¬ endsIn serverSuffix name' = true ∨
      name' = name ++ serverSuffix ∧ ¬ endsIn serverSuffix name = true := by
  have happend (name : String) : endsIn serverSuffix (name ++ serverSuffix) = true :=
    endsIn_append name serverSuffix
  by_cases hends : endsIn serverSuffix name = true <;>
    by_cases hends' : endsIn serverSuffix name' = true
  · rw [withServerSuffix_of_endsIn hends, withServerSuffix_of_endsIn hends']
    simp [hends, hends']
  · rw [withServerSuffix_of_endsIn hends, withServerSuffix_of_not_endsIn hends']
    have hne : name ≠ name' := fun heq => hends' (heq ▸ hends)
    simp [hends, hends', hne]
  · rw [withServerSuffix_of_not_endsIn hends, withServerSuffix_of_endsIn hends']
    have hne : name ≠ name' := fun heq => hends (heq ▸ hends')
    simp [hends, hends', hne, eq_comm]
  · rw [withServerSuffix_of_not_endsIn hends, withServerSuffix_of_not_endsIn hends']
    have hne : name ≠ name' ++ serverSuffix := fun heq => hends (heq ▸ happend name')
    have hne' : name' ≠ name ++ serverSuffix := fun heq => hends' (heq ▸ happend name)
    simp [hends, hends', hne, hne']

/-- A safe name is a path of one part. -/
theorem Safe.ofText_eq (h : Safe name) : Path.ofText name = ⟨.none, [name]⟩ := by
  have hslash : '/' ∉ name.toList := fun hmem => absurd (h.chars _ hmem) (by decide)
  have hparts : Path.partsOfText name = [name] := by
    simp [Path.partsOfText, Path.pieces_of_no_slash hslash, h.nonempty, h.noDot]
  rw [Path.ofText, hparts]
  split
  · next hlead => exact absurd (hlead ▸ List.mem_cons_self) hslash
  · next hlead => exact absurd (hlead ▸ List.mem_cons_self) hslash
  · next hlead => exact absurd (hlead ▸ List.mem_cons_self) hslash
  · rfl

/-- A name is taken exactly if it is acceptable, and refused as invalid otherwise. The file that it
stands for has the ending, is one part of a path and can be given by its own name. Two names stand for
one file exactly if they are the same up to an ending that was left out. -/
theorem normalizeServer_exact (name : String) :
    ((∃ file, normalizeServer (some name) = .ok file) ↔ Acceptable name) ∧
    (∀ refusal, normalizeServer (some name) = .error refusal → refusal.kind = .invalidName) ∧
    (∀ file, normalizeServer (some name) = .ok file →
      file = (if endsIn ".conf" name then name else name ++ ".conf") ∧
        Path.ofText file = ⟨.none, [file]⟩ ∧ Acceptable file ∧
        normalizeServer (some file) = .ok file) ∧
    ∀ name' file file', normalizeServer (some name) = .ok file →
      normalizeServer (some name') = .ok file' →
      (file = file' ↔ name = name' ∨ name = name' ++ ".conf" ∧ ¬ endsIn ".conf" name' = true ∨
        name' = name ++ ".conf" ∧ ¬ endsIn ".conf" name = true) := by
  have hfile {name file : String} (h : normalizeServer (some name) = .ok file) :
      Acceptable name ∧ file = withServerSuffix name := by
    have hname := acceptable_of_normalizeServer h
    exact ⟨hname, Except.ok.inj (h.symm.trans hname.normalizeServer_eq)⟩
  refine ⟨⟨fun ⟨file, h⟩ => (hfile h).1, fun h => ⟨_, h.normalizeServer_eq⟩⟩,
    fun refusal h => normalizeServer_refuses h, fun file h => ?_, fun name' file file' h h' => ?_⟩
  · obtain ⟨hname, rfl⟩ := hfile h
    have hagain := hname.suffixed.normalizeServer_eq
    rw [withServerSuffix_of_endsIn (endsIn_withServerSuffix name)] at hagain
    exact ⟨rfl, hname.suffixed.toSafe.ofText_eq, hname.suffixed, hagain⟩
  · obtain ⟨-, rfl⟩ := hfile h
    obtain ⟨-, rfl⟩ := hfile h'
    exact withServerSuffix_eq_iff

/-- A name with points alone and a name with the ending twice. -/
theorem normalizeServer_exact_points :
    normalizeServer (some "...") = .ok "....conf" ∧
    normalizeServer (some "....conf") = .ok "....conf" ∧
    "....conf" = "..." ++ ".conf" ∧ ¬ endsIn ".conf" "..." = true := by
  have h : normalizeServer (some "...") = .ok "....conf" := rfl
  have h' := ((normalizeServer_exact "...").2.2.1 _ h).2.2.2
  refine ⟨h, h', ?_⟩
  rcases ((normalizeServer_exact "...").2.2.2 _ _ _ h h').mp rfl with heq | ⟨heq, -⟩ | hends
  · exact absurd heq (by decide)
  · exact absurd heq (by decide)
  · exact hends

end ConfigSteward.Name
