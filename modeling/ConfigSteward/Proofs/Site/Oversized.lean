import ConfigSteward.Proofs.Backup.Oversized
import ConfigSteward.Proofs.Site.Leftovers

/-!
# New server files beyond the limit

Under a limit on the size of files a new server file that is larger is refused, and what fits of it
stays at its place.
-/
namespace ConfigSteward

open Plan

namespace Site

variable {s : Site} {w : World} {p : Path} {place : Place} {name : Option String}
  {content : Option RawText} {bytes : Bytes} {limit : Nat}

/-- A new server file larger than the limit is refused, and the part that fits stays at its place. -/
theorem runBounded_createServer (hp : s.serverPath name = .ok p)
    (hencoded : (newContent content).encode = .ok bytes)
    (hlimit : w.tree.sizeLimit? = some limit) (hlarge : limit < bytes.length)
    (hvacancy : w.vacancy p = .ok place) :
    (s.createServer name content).run.runBounded w
      = (.error (.refused (uncreated p (.tooLarge p))),
        w.withFile place (bytes.take limit)) := by
  obtain ⟨text, hcontent, rfl⟩ := RawText.encode_eq_ok_iff.mp hencoded
  have hresolve : w.tree.resolve w.here p = .ok place := Tree.resolve_of_leads
    (Tree.walk_eq_ok_iff.mp (World.vacancy_eq_ok_iff.mp hvacancy).1.followed).2
  have hmade := FileTask.runBounded_createWith hlimit hvacancy (Text.encodeString text)
  rw [if_pos hlarge] at hmade
  simp only [createServer, serverPathTask, hp, hcontent, pure_bind, writeNew]
  rw [Lock.runBounded_hold hresolve, runBounded_andThen_ok (t := Task.attemptFile _)
    (runBounded_lift hmade)]
  rfl

/-- The service may write files of one byte only. -/
def cramped : World := { unstocked with tree := unstocked.tree.limitSize (some 1) }

/-- The backup was begun. -/
def halfCopied : World :=
  (unstocked.noting "a").withFile ["b", "a.20240501_120000.backup"] [120]

private theorem list_halfCopied :
    (unstockedSite.store.list none).run.run halfCopied = (.ok [⟨"a.20240501_120000.backup", "a",
      some ⟨2024, 5, 1, 12, 0, 0⟩, 1⟩], halfCopied) := by
  have hfounded : unstockedSite.store.Founded halfCopied :=
    ⟨⟨Tree.sound_of_entries (by decide), rfl⟩, by decide, by decide⟩
  have hlook : halfCopied.look (unstockedSite.store.pathOf "a.20240501_120000.backup")
      = .ok ⟨.file, 0o644, 1, .lately⟩ := by cbv
  exact hfounded.list_one ⟨["b"], by cbv, by decide⟩ (by decide)
    ⟨_, ⟨by decide, by decide, hlook, rfl⟩, rfl, rfl⟩

/-- Where the service may write one byte only, a refused call leaves half a backup, which is listed and
given out, and another half a server file, which is read and keeps the next try from its name. -/
theorem failed_creates_leave_first_parts :
    (unstockedSite.store.create "a" [120, 121]).run.runBounded cramped
        = (.error (.refused (Store.unwritten "a.20240501_120000.backup"
            (.tooLarge (unstockedSite.store.pathOf "a.20240501_120000.backup")))),
          (cramped.noting "a").withFile ["b", "a.20240501_120000.backup"] [120]) ∧
    (unstockedSite.createServer (some "x") (some "ab")).run.runBounded cramped
        = (.error (.refused (uncreated ⟨.one, ["s", "x.conf"]⟩ (.tooLarge ⟨.one, ["s", "x.conf"]⟩))),
          cramped.withFile ["s", "x.conf"] [97]) ∧
    (∃ text, (unstockedSite.store.create "a" [120, 121]).run.MayEnd .any unstocked
        (.error (.refused (.backup text))) halfCopied) ∧
      halfCopied.tree ≠ unstocked.tree ∧
      (unstockedSite.store.list none).run.run halfCopied = (.ok [⟨"a.20240501_120000.backup", "a",
        some ⟨2024, 5, 1, 12, 0, 0⟩, 1⟩], halfCopied) ∧
      (unstockedSite.store.get "a.20240501_120000.backup").run.run halfCopied
        = (.ok [120], halfCopied) ∧
    (∃ text, (unstockedSite.createServer (some "x") (some "ab")).run.MayEnd .any unstocked
        (.error (.refused (.fileAccess text))) halfway) ∧
      halfway.tree ≠ unstocked.tree ∧
      (unstockedSite.readServer (some "x")).run.run halfway
        = (.ok ⟨"x.conf", "a", ⟨.one, ["s", "x.conf"]⟩⟩, halfway) ∧
      (unstockedSite.createServer (some "x") (some "ab")).run.run halfway
        = (.error (.refused ⟨.alreadyExists, some "file already exists",
          [("name", .text "x.conf")]⟩), halfway) := by
  have hcopied : (unstocked.noting "a").Begun (unstockedSite.store.pathOf
      (Name.writeBackup "a" (unstocked.readingFor "a") 0)) [120, 121] halfCopied :=
    ⟨["b", "a.20240501_120000.backup"], 1, by cbv, rfl⟩
  have hlimit : cramped.tree.sizeLimit? = some 1 := Tree.sizeLimit?_limitSize _ _
  have hserver : (unstockedSite.createServer (some "x") (some "ab")).run.runBounded cramped
      = (.error (.refused (uncreated ⟨.one, ["s", "x.conf"]⟩ (.tooLarge ⟨.one, ["s", "x.conf"]⟩))),
        cramped.withFile ["s", "x.conf"] ((Text.encodeString "ab").take 1)) :=
    runBounded_createServer serverPath_unstocked rfl hlimit (by cbv) (by cbv)
  refine ⟨Store.runBounded_create (by decide) hlimit (by decide) (Nat.zero_le _) (by cbv) .empty
      (by cbv), hserver,
    Store.mayEnd_create_refused.mpr ⟨by decide, .inr ⟨0, le_rfl, by decide, .empty, hcopied⟩⟩,
    hcopied.tree_ne, list_halfCopied, by cbv, mayEnd_createServer_refused.mpr
      ⟨_, _, serverPath_unstocked, resolve_unstocked, .inr ⟨_, rfl, begun_halfway⟩⟩, begun_halfway.tree_ne,
    read_halfway, createServer_begun serverPath_unstocked begun_halfway⟩

end Site
end ConfigSteward
