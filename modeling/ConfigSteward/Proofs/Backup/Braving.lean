import ConfigSteward.Proofs.Backup.Hindered
import ConfigSteward.Proofs.Site.Kinds
import ConfigSteward.Proofs.World.Faltering

/-!
# Backups looked up, read, listed and deleted amid mishaps

None of these calls changes anything before its last request to the files. So a mishap ends it with
all as it was: with a fault where the question whether there is such a file was struck, with a refusal
where the access itself was.
-/
namespace ConfigSteward

open Plan

namespace Store

variable {hazard : Hazard} (s : Store)

/-- A question about a file that becomes a failure of the call. -/
theorem falters_asked {α : Type} {t : FileTask α} {p : Path}
    (h : Falters hazard (fun f => ∃ u, hazard.strikes u (.look p) f) t) :
    Falters hazard (Stumbles hazard) (Task.ofFile t) :=
  h.mapError fun _ ⟨_, hf⟩ => .untold hf

/-- An access that is refused if it fails. -/
theorem falters_accessed {α : Type} {t : FileTask α} {r : Request} {message : Fault → String}
    (h : Falters hazard (fun f => ∃ u, hazard.strikes u r f) t) (hr : r.Accesses) :
    Falters hazard (Stumbles hazard) (Task.ofFileOr (fun f => .fileAccess (message f)) t) :=
  h.mapError fun _ ⟨_, hf⟩ => .barred hr hf

section
variable (hblatant : hazard.Blatant)
include hblatant

theorem falters_find (name : String) : Falters hazard (Stumbles hazard) (s.find name) := by
  rw [find]
  split
  · refine .andThen (Task.falters_resolve _) (Still.asking.resolve _) fun place => ?_
    split
    · refine .andThen (falters_asked (FileTask.falters_leads _ hblatant _))
        (Still.asking.ofFile (Still.asking.leads _ _)) fun there => ?_
      cases there
      · exact Task.falters_refuse _
      · exact .pure _
    · exact Task.falters_refuse _
  · exact Task.falters_refuse _

theorem falters_get (name : String) : Falters hazard (Stumbles hazard) (s.get name) := by
  rw [get]
  refine .andThen (s.falters_find hblatant name) (Still.asking.find s name) fun path => ?_
  exact falters_accessed (FileTask.falters_read path) trivial

theorem falters_delete (name : String) : Falters hazard (Stumbles hazard) (s.delete name) := by
  rw [delete]
  refine .andThen (s.falters_find hblatant name) (Still.asking.find s name) fun path => ?_
  refine (FileTask.falters_unlink path).settled (fun result => ?_) fun f hf => ?_
  · rcases result with f | ⟨⟩
    · by_cases hf : f.cause = .noEntry
      · exact ⟨_, by simp only [hf, if_true]; rfl⟩
      · exact ⟨_, by simp only [hf, if_false]; rfl⟩
    · exact ⟨_, rfl⟩
  · obtain ⟨u, hf⟩ := hf
    refine ⟨.refused (.fileAccess s!"Error deleting backup {name}: {f.message}"),
      .barred (r := .unlink path) trivial hf, ?_⟩
    simp only [(hazard.untimely hf).1, if_false]
    rfl

theorem falters_describe (wanted : Option String) (name : String) :
    Falters hazard (Stumbles hazard) (s.describe wanted name) := by
  rw [describe]
  split
  · refine .andThen (falters_asked (FileTask.falters_leads _ hblatant _))
      (Still.asking.ofFile (Still.asking.leads _ _)) fun there => ?_
    split
    · refine .andThen (falters_asked (FileTask.falters_look _))
        (Still.asking.ofFile (Still.asking.asks (.look _) trivial)) fun status => ?_
      split
      · exact .throw _
      · exact .pure _
    · exact .pure _
  · exact .pure _

theorem falters_describeAll (wanted : Option String) (names : List String) :
    Falters hazard (Stumbles hazard) (s.describeAll wanted names) := by
  induction names with
  | nil => exact .pure _
  | cons name names ih =>
    rw [describeAll]
    refine .andThen (s.falters_describe hblatant wanted name) (Still.asking.describe s wanted name)
      fun b => ?_
    split
    · exact .andThen ih (Still.asking.describeAll s wanted names) fun bs => .pure _
    · exact ih

theorem falters_list (wanted : Option String) :
    Falters hazard (Stumbles hazard) (s.list wanted) := by
  rw [list]
  refine .andThen (falters_accessed (FileTask.falters_list _) trivial)
    (Still.asking.ofFileOr (Still.asking.asks (.list _) trivial)) fun names => ?_
  exact .andThen (s.falters_describeAll hblatant wanted names)
    (Still.asking.describeAll s wanted names) fun bs => .pure _

end
end Store
end ConfigSteward
