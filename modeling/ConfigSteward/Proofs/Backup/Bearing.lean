import ConfigSteward.Proofs.Backup.Braving
import ConfigSteward.Proofs.Backup.Refining

/-!
# What a store keeps amid mishaps

Where calls to the files fail, a store does to its folder what the calls do to the map of its
snapshots, but for three more ends. A snapshot that could not be filled stays with what it got. A
failing question about a file, or a path that is too long, makes a call fail with a fault. An access
that fails is refused. All but the first leave the snapshots as they were.
-/
namespace ConfigSteward

open Plan

/-- The call is about backups that are there. -/
def Store.Call.LooksUp : Store.Call → Prop
  | .get _ | .delete _ | .list _ => True
  | .create _ _ => False

/-- How calls may be answered amid mishaps, and what they leave of the snapshots. -/
inductive Snapshots.Bears (m : Snapshots) (s : Store) (hazard : Hazard) :
    Store.Call → Except Failure Store.Answer → Snapshots → Prop where
  | answers {c : Store.Call} {r : Except Failure Store.Answer} {m' : Snapshots}
      (near : ¬ s.Strays m c) (answers : m.Answers c r m') : Bears m s hazard c r m'
  | begins {name message : String} (e : Snapshot) (k : Nat) (fresh : m name = none)
      (tears : hazard.Tears) :
      Bears m s hazard (.create e.artifact e.bytes) (.error (.refused (.backup message)))
        (Function.update m name (some { e with bytes := e.bytes.take k }))
  | strays {c : Store.Call} {f : Fault} (far : s.Strays m c) :
      Bears m s hazard c (.error (.fault f)) m
  | stumbles {c : Store.Call} {failure : Failure} (looksUp : c.LooksUp)
      (stumbles : Stumbles hazard failure) : Bears m s hazard c (.error failure) m

/-- Where nothing goes wrong a call that meets no path that is too long is answered by the map. -/
theorem Snapshots.Bears.answers_of_none {m m' : Snapshots} {s : Store} {c : Store.Call}
    {r : Except Failure Store.Answer} (h : m.Bears s .none c r m') (hnear : ¬ s.Strays m c) :
    m.Answers c r m' := by
  cases h with
  | answers _ answers => exact answers
  | begins _ _ _ tears =>
    obtain ⟨_, _, _, _, hstrikes⟩ := tears
    exact hstrikes.elim
  | strays far => exact absurd far hnear
  | stumbles _ stumbles => exact absurd stumbles not_stumbles_none

namespace Store

variable {hazard : Hazard} {s : Store} {w v : World} {c : Call} {r : Except Failure Answer}

/-- The calls that the map of snapshots tells all about: what is backed up has a safe name, and the
name of a backup is not too long. -/
def Call.Proper : Call → Prop
  | .create artifact _ => Name.Safe artifact
  | .get name | .delete name => Name.IsBackup name → name.length ≤ longestName
  | .list _ => True

theorem falters_call (hblatant : hazard.Blatant) (s : Store) (hc : c.LooksUp) :
    Falters hazard (Stumbles hazard) (s.call c) := by
  cases c with
  | create => exact hc.elim
  | get name => exact (s.falters_get hblatant name).map _
  | delete name => exact (s.falters_delete hblatant name).map _
  | list wanted => exact (s.falters_list hblatant wanted).map _

namespace Keeps

variable (h : s.Keeps w)
include h

/-- A call that meets no path that is too long. -/
theorem refines_lookup (hc : c.LooksUp) (hproper : c.Proper)
    (hnear : ¬ s.Strays (s.snapshots w.tree) c) :
    (s.call c).run.Does (fun _ => True) w fun r v _ => s.Refines w c r v := by
  cases c with
  | create => exact hc.elim
  | get name => exact h.does_get fun hname => ⟨hproper hname, fun hfar => hnear ⟨hname, hfar⟩⟩
  | delete name => exact h.does_delete fun hname => ⟨hproper hname, fun hfar => hnear ⟨hname, hfar⟩⟩
  | list wanted => exact h.does_list fun name hthere hfar => hnear ⟨name, hthere, hfar⟩

/-- Looking up, deleting and listing amid mishaps. -/
theorem bears_lookup (hblatant : hazard.Blatant) (hc : c.LooksUp) (hproper : c.Proper)
    (hend : (s.call c).run.MayEnd hazard w r v) :
    s.Keeps v ∧ (s.snapshots w.tree).Bears s hazard c r (s.snapshots v.tree) := by
  obtain hrun | ⟨failure, hstumbles, rfl, rfl⟩ := falters_call hblatant s hc w r v hend
  · by_cases hstrays : s.Strays (s.snapshots w.tree) c
    · obtain ⟨hv, f, hr⟩ := (h.does_strays hstrays).ends
      rw [← hrun] at hv hr
      obtain rfl : v = w := hv
      obtain rfl : r = .error (.fault f) := hr
      exact ⟨h, .strays hstrays⟩
    · have hrefines := (h.refines_lookup hc hproper hstrays).ends
      rw [← hrun] at hrefines
      exact ⟨hrefines.1, .answers hstrays hrefines.2⟩
  · exact ⟨h, .stumbles hc hstumbles⟩

/-- Making a backup amid mishaps. -/
theorem bears_create {artifact : String} {content : Bytes} (hsafe : Name.Safe artifact)
    (hreading : (w.readingFor artifact).Valid ∧ 1000 ≤ (w.readingFor artifact).year) :
    (s.call (.create artifact content)).run.Leaves hazard w fun r v _ =>
      s.Keeps v ∧ (s.snapshots w.tree).Bears s hazard (.create artifact content) r
        (s.snapshots v.tree) := by
  have hnear : ¬ s.Strays (s.snapshots w.tree) (.create artifact content) := id
  have hnoting := h.of_alike (w.noting_alike artifact) (h.noting hreading)
  refine always_andThen.mpr ((s.always_create w artifact content).mono ?_)
  rintro (failure | ⟨name, artifact', created, size⟩) u marks hcreated
  · obtain ⟨-, ⟨refusal, rfl, hkind⟩, hu⟩ := hcreated
    obtain ⟨message, rfl⟩ := hkind hsafe.isSafe
    obtain rfl | rfl | ⟨htears, -, hbegins⟩ := hu
    · exact ⟨h, .answers hnear (.balks message)⟩
    · exact ⟨hnoting, .answers hnear (.balks message)⟩
    · obtain ⟨name, place, k, hslot, rfl⟩ := hbegins.slot hsafe.isSafe
      obtain ⟨hkeeps, hfresh, hsnapshots⟩ := h.adds hsafe hreading hslot (content.take k)
      rw [hsnapshots]
      exact ⟨hkeeps, .begins ⟨artifact, w.readingFor artifact, content⟩ k hfresh htears⟩
  · obtain ⟨-, hb, place, hslot, rfl⟩ := hcreated
    cases hb
    obtain ⟨hkeeps, hfresh, hsnapshots⟩ := h.adds hsafe hreading hslot content
    refine always_pure.mpr ⟨hkeeps, ?_⟩
    rw [hsnapshots]
    exact .answers hnear (.adds ⟨artifact, w.readingFor artifact, content⟩ hfresh)

end Keeps
end Store
end ConfigSteward
