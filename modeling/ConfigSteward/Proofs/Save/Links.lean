import ConfigSteward.Proofs.Save.Failing
import ConfigSteward.Proofs.Save.Hindered

/-!
# Saves of links

A link at the end of a path is followed when the path is read, but a replacement and a deletion act
on the link itself. So a save that is taken back loses the link: where it was there is a file with
the content that was read through it, or nothing at all. What the link led to is left alone.
-/
namespace ConfigSteward

namespace Tree

variable {t : Tree} {links : Nat} {p q r : Place} {names : List String} {name target : String}

/-- Whatever the number of links that are left, a walk ends where it does or meets too many. -/
theorem Leads.fewer (h : t.Leads true links p names q) (left : Nat) :
    t.walkFrom true left p names = .ok q ∨
      t.walkFrom true left p names = .error .tooManyLinks := by
  induction h generalizing left with
  | stop => exact .inl (walkFrom_nil _ _ _ _)
  | up _ ih => rw [walkFrom_up]; exact ih left
  | into plain found _ ih =>
    rw [walkFrom_into plain (skeleton_eq_folder_iff.mp found)]
    exact ih left
  | leaf plain found => exact .inl (walkFrom_leaf plain found)
  | kept _ _ hfollow => cases hfollow
  | through plain found goesOn _ ih =>
    cases left with
    | zero =>
      right
      rw [walkFrom, if_neg plain.1, if_neg (Nat.not_lt.mpr plain.2), skeleton_eq_link_iff.mp found]
      exact if_neg fun h => Bool.noConfusion h.2
    | succ left =>
      rw [walkFrom_through plain (skeleton_eq_link_iff.mp found) goesOn]
      exact ih left

/-- A link with this text in the folder `r` leads to no folder. -/
def Blind (t : Tree) (r : Place) (target : String) : Prop :=
  ∀ links q, t.Leads true links ((Path.ofText target).start r) (Path.ofText target).parts q →
    t.get? q ≠ some .folder

/-- No walk to a folder goes through a link that leads to none. -/
theorem Blind.past (hblind : t.Blind r target) (ht : t.Sound)
    (hlink : t.get? (r ++ [name]) = some (.link target)) (hp : t.get? p = some .folder)
    (h : t.Leads true links p names q) (hq : t.get? q = some .folder) :
    (t.remove (r ++ [name])).Leads true links p names q := by
  have hset : t.Sets (r ++ [name]) none (t.remove (r ++ [name])) := remove_sets (by simp)
  have kept {g : Place} (hg : t.get? g ≠ some (.link target)) :
      (t.remove (r ++ [name])).skeleton g = t.skeleton g :=
    skeleton_congr (hset.other fun heq => hg (heq ▸ hlink))
  induction h with
  | stop => exact .stop
  | @up _ p _ _ _ ih =>
    have hup : t.get? p.dropLast = some .folder := by
      by_cases hnil : p = []
      · simp [hnil]
      · exact ht p _ hnil hp
    exact .up (ih hup hq)
  | into plain found _ ih =>
    have hfolder := skeleton_eq_folder_iff.mp found
    exact .into plain ((kept (by simp [hfolder])).trans found) (ih hfolder hq)
  | leaf _ found =>
    rw [skeleton_eq_folder_iff.mpr hq] at found
    cases found
  | kept _ _ hfollow => cases hfollow
  | @through _ p _ name' target' _ plain found goesOn tail ih =>
    have hstart := get?_start hp (Path.ofText target')
    by_cases hsame : p ++ [name'] = r ++ [name]
    · obtain ⟨rfl, -⟩ := List.append_inj' hsame rfl
      rw [hsame, skeleton_eq_link_iff, hlink] at found
      cases found
      obtain ⟨g, hg, hfolder⟩ := tail.begins ht hstart hq
      exact absurd hfolder (hblind _ g hg)
    · refine .through plain ?_ goesOn (ih hstart hq)
      rw [skeleton_congr (hset.other hsame), found]

end Tree

namespace Save

open World

variable {s : Save} {store : Store} {w u : World} {p : Path} {prior : Option Bytes}
  {name target : String} {place goal live : Place}

/-- Content that can be read through a link, or a link that leads nowhere: no folder is at the end of
the link. -/
theorem Prior.blind {r : Place} (hprior : Prior w p prior) (hw : w.Sound)
    (hwalk : w.tree.walk false w.here p = .ok (r ++ [p.name]))
    (hlink : w.tree.get? (r ++ [p.name]) = some (.link target)) : w.tree.Blind r target := by
  intro links q hleads hfolder
  obtain ⟨hparts, r', hr', hfolder', hplain, heq⟩ := split_of_walk hw hwalk (by simp [hlink])
  obtain ⟨rfl, -⟩ := List.append_inj' heq rfl
  obtain ⟨left, hleft⟩ := (Tree.walk_eq_ok_iff.mp hr').2.front hfolder'
  have hend : w.tree.walk true w.here p = .ok q ∨
      w.tree.walk true w.here p = .error .tooManyLinks := by
    rw [Tree.walk, if_neg (Nat.not_lt.mpr (Tree.walk_eq_ok_iff.mp hwalk).1), hparts]
    change w.tree.walkFrom true linkBudget (p.parent.start w.here) _ = _ ∨
      w.tree.walkFrom true linkBudget (p.parent.start w.here) _ = _
    rw [hleft true [p.name] (by simp)]
    have hthrough : w.tree.Leads true (links + 1) r [p.name] q := by
      refine .through hplain (Tree.skeleton_eq_link_iff.mpr hlink) (fun _ => rfl) ?_
      rwa [List.append_nil]
    exact hthrough.fewer left
  have hread : w.read p = fault .isDirectory p ∨ w.read p = fault .tooManyLinks p := by
    rcases hend with hend | hend
    · exact .inl (by simp only [World.read, onNode, hend, hfolder])
    · exact .inr (by simp only [World.read, onNode, hend])
  cases prior with
  | none =>
    obtain ⟨f, hf, hcause⟩ := hprior
    rcases hread with hread | hread
    · cases hf.symm.trans hread
      cases hcause
    · cases hf.symm.trans hread
      cases hcause
  | some bytes =>
    rcases hread with hread | hread
    · cases hread.symm.trans hprior
    · cases hread.symm.trans hprior

/-- The new content of a link comes to the place of the link, where the path ends still. -/
theorem Puts.at_link (puts : s.Puts store w prior name place u goal) (hw : w.Sound)
    (hwalk : w.tree.walk false w.here s.path = .ok live)
    (hlink : w.tree.get? live = some (.link target)) :
    u = s.stored w prior place ∧ goal = live ∧ u.StandsWithout live s.path.parent := by
  have hback := puts.backs
  obtain ⟨-, r, hr, hfolder, -, rfl⟩ := split_of_walk hw hwalk (by simp [hlink])
  have hne : r ++ [s.path.name] ≠ [] := by simp
  have hbelow : w.tree.Below (s.stored w prior place).tree := .of_eq hback.skeleton
  obtain rfl := World.Stands.eq_of_dug
    (World.Stands.mono ⟨r, hr, hfolder⟩ hbelow rfl) (hback.sound hw) puts.dug
  obtain rfl := Except.ok.inj (puts.walk.symm.trans (Tree.walk_mono hbelow hwalk))
  refine ⟨rfl, rfl, World.StandsWithout.of_skeleton ?_ hne hback.skeleton rfl⟩
  have hblind := hback.prior.blind hw hwalk hlink
  obtain ⟨hlen, hleads⟩ := Tree.walk_eq_ok_iff.mp hr
  refine ⟨r, Tree.walk_eq_ok_iff.mpr ⟨hlen, hblind.past hw.tree hlink (Tree.get?_start hw.here _)
    hleads hfolder⟩, ?_⟩
  have hother : r ≠ r ++ [s.path.name] := by simp
  exact ((Tree.remove_sets hne).other hother).trans hfolder

/-- A save of a link that is taken back leaves the content read through the link in its place, or
nothing if it led nowhere. All other entries stay, what the link led to among them. -/
theorem rollback_replaces_link (hw : w.Sound) (hquiet : w.Quiet)
    (hwalk : w.tree.walk false w.here s.path = .ok live)
    (hlink : w.tree.get? live = some (.link target)) (c : Controller) :
    (s.run store c).run.Always w fun r v _ => ∀ o, r = .ok o → o.rolledBack = true →
      ∃ prior mode, Prior w s.path prior ∧
        v.tree.get? live = prior.map (fun bytes => .file bytes mode .lately) ∧
        ∀ q, q ≠ live → w.tree.get? q ≠ none → v.tree.get? q = w.tree.get? q := by
  refine (always_run hw hquiet (fun mode puts => ?_) c).mono fun r v marks hends o ho hrolled => ?_
  · obtain ⟨-, rfl, hpast⟩ := puts.at_link hw hwalk hlink
    exact hpast.lands_put (puts.sound hw) puts.walk puts.noFolder s.content mode .lately
  · cases hends o ho with
    | unbacked | unwritten | stuck | accepted => cases hrolled
    | @reloaded _ _ _ _ _ _ _ result reply =>
      rw [Outcome.afterReload] at hrolled
      split at hrolled <;> [skip; split at hrolled] <;> cases hrolled
    | @rejected u x prior name place goal mode m _ _ _ puts _ hx =>
      obtain ⟨rfl, rfl, -⟩ := puts.at_link hw hwalk hlink
      have hgoal : goal ≠ [] := by
        rintro rfl
        simp at hlink
      have hset : (s.stored w prior place).tree.Sets goal (some (.file s.content mode .lately))
          x.tree := by
        rw [hx]
        exact Tree.put_sets hgoal _
      have hback := hset.trans (Tree.putBack_sets (t := x.tree) hgoal m prior)
      refine ⟨prior, m, puts.backs.prior, hback.self, fun q hq hthere => ?_⟩
      have hplace : q ≠ place := by
        rintro rfl
        exact hthere puts.backs.slot.vacant
      rw [hback.other hq, puts.backs.other hplace]

/-- A folder for backups, a link to a file and a checker that turns everything down. -/
def pointing : World :=
  { strict with
    tree := ⟨[(["b"], .folder), (["d"], .folder), (["d", "l"], .link "/f"),
      (["f"], .file [97] 0o640 (.known 0))]⟩ }

def savePointing : Save := { path := ⟨.one, ["d", "l"]⟩, content := [98], artifact := "l" }

private theorem run_pointing :
    (savePointing.run ⟨["b"]⟩ {}).run.run pointing
      = (.ok (savePointing.rejected "l.20240501_120000.backup" .bad),
        { pointing with
          tree := ⟨[(["d", "l"], .file [97] 0o640 .lately),
            (["b", "l.20240501_120000.backup"], .file [97] 0o644 .lately), (["b"], .folder),
            (["d"], .folder), (["f"], .file [97] 0o640 (.known 0))]⟩
          noted := [("l", ⟨2024, 5, 1, 12, 0, 0⟩)]
          ran := [savePointing.checkArgs {}] }) := by cbv

theorem rollback_replaces_link_pointing :
    ∃ o, ((savePointing.run ⟨["b"]⟩ {}).run.run pointing).1 = .ok o ∧ o.rolledBack = true ∧
      ∃ prior mode, Prior pointing savePointing.path prior ∧
        ((savePointing.run ⟨["b"]⟩ {}).run.run pointing).2.tree.get? ["d", "l"]
          = prior.map (fun bytes => .file bytes mode .lately) ∧
        ∀ q, q ≠ ["d", "l"] → pointing.tree.get? q ≠ none →
          ((savePointing.run ⟨["b"]⟩ {}).run.run pointing).2.tree.get? q
            = pointing.tree.get? q := by
  have hw : pointing.Sound := ⟨Tree.sound_of_entries (by decide), rfl⟩
  have hwalk : pointing.tree.walk false pointing.here savePointing.path = .ok ["d", "l"] := by cbv
  have hlink : pointing.tree.get? ["d", "l"] = some (.link "/f") := by decide
  have ho : ((savePointing.run ⟨["b"]⟩ {}).run.run pointing).1 = .ok _ :=
    congrArg Prod.fst run_pointing
  exact ⟨_, ho, rfl,
    (rollback_replaces_link hw (fun _ _ _ => rfl) hwalk hlink {}).run _ ho rfl⟩

/-- A save of a link that was taken back; the link is not there again. -/
theorem rollback_loses_link :
    pointing.tree.get? ["d", "l"] = some (.link "/f") ∧
      ∃ o, ((savePointing.run ⟨["b"]⟩ {}).run.run pointing).1 = .ok o ∧ o.rolledBack = true ∧
        ((savePointing.run ⟨["b"]⟩ {}).run.run pointing).2.tree.get? ["d", "l"]
          ≠ some (.link "/f") := by
  rw [run_pointing]
  exact ⟨by decide, _, rfl, rfl, by decide⟩

end Save
end ConfigSteward
