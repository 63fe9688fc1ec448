import ConfigSteward.Proofs.Save.Observing

/-!
# Saves that are cut short

However a save is cut short, an observer finds a file with its prior content or with the new one, and
the programs were run on the new content only, in their order.
-/
namespace ConfigSteward.Save

open World

variable {s : Save} {store : Store} {c : Controller} {w v : World} {place : Place}
  {prior : Option Bytes} {name : String}

/-- The programs run on the new content only, and a reload only after a check that passed. -/
def Ordered (s : Save) (c : Controller) (es : List Execution) : Prop :=
  ∀ earlier e later, es = earlier ++ e :: later →
    e.before.read s.path = .ok s.content ∧
      (e.args = s.checkArgs c ∨ e.args = c.reloadArgs ∧ ∃ check ∈ earlier,
        check.args = s.checkArgs c ∧ ∃ result, check.reply = .ok result ∧ result.exitOk = true)

private theorem ordered_check {check : Execution} (hread : check.before.read s.path = .ok s.content)
    (hargs : check.args = s.checkArgs c) : s.Ordered c [check] := by
  intro earlier e later hes
  obtain ⟨rfl, heq⟩ | ⟨rest, rfl, heq⟩ := List.cons_eq_append_iff.mp hes
  · cases heq
    exact ⟨hread, .inl hargs⟩
  · simp at heq

private theorem ordered_reload {check reload : Execution} {result : CommandResult}
    (hcheck : check.before.read s.path = .ok s.content) (hargs : check.args = s.checkArgs c)
    (hreply : check.reply = .ok result) (good : result.exitOk = true)
    (hreload : reload.before.read s.path = .ok s.content) (hargs' : reload.args = c.reloadArgs) :
    s.Ordered c [check, reload] := by
  intro earlier e later hes
  obtain ⟨rfl, heq⟩ | ⟨rest, rfl, heq⟩ := List.cons_eq_append_iff.mp hes
  · cases heq
    exact ⟨hcheck, .inl hargs⟩
  · obtain ⟨rfl, heq⟩ | ⟨_, rfl, heq⟩ := List.cons_eq_append_iff.mp heq
    · cases heq
      exact ⟨hreload, .inr ⟨hargs', check, by simp, hargs, result, hreply, good⟩⟩
    · simp at heq

theorem Ends.ordered {r : Except Failure Outcome} {es : List Execution} (hw : w.Sound)
    (hp : Saveable store w s.path) (h : s.Ends store c w prior name place r v es) :
    s.Ordered c es := by
  have hread {u : World} {goal : Place} {mode : Nat}
      (writes : s.Writes store w prior name place u goal mode) :
      (s.written u goal mode).read s.path = .ok s.content :=
    (written_saved hp.replaceable writes.backs (hp.apart hw writes.backs) hw writes.replaces).read_eq
  cases h with
  | looped | refused | unwritten =>
    intro earlier e later hes
    simp at hes
  | rejected writes => exact ordered_check (hread writes) rfl
  | accepted writes => exact ordered_check (hread writes) rfl
  | reloaded writes hresult good hresult' =>
    exact ordered_reload (hread writes) rfl rfl good (hread writes) rfl

/-- At every point of a save, also in the middle of a write, the file holds its prior content or the
new one in full, the new one only with the prior one backed up in full, and no other new entry reads
as a server file or as a backup. The programs see the new content, and the server is asked to reload
only after a check that passed. -/
theorem run_crash_safe (hw : w.Sound) (hquiet : w.Quiet) (hp : Saveable store w s.path)
    (hne : held w s.path ≠ some s.content) :
    ∃ name, (∀ v, (s.run store c).run.Passes w v → Observed s store w name v) ∧
      s.Ordered c ((s.run store c).run.executions w) := by
  obtain ⟨prior, name, place, hdoes⟩ := does_run (s := s) hw hp.replaceable.steady hquiet store c
  exact ⟨name, fun v hv => phase_observed hw hp hne (hdoes.through v hv), hdoes.ends.ordered hw hp⟩

theorem run_crash_safe_strict :
    let s : Save := { path := ⟨.one, ["a"]⟩, content := [98], artifact := "a" }
    held strict s.path = some [97] ∧
      ∃ name, (∀ v, (s.run ⟨["b"]⟩ {}).run.Passes strict v → Observed s ⟨["b"]⟩ strict name v) ∧
        s.Ordered {} ((s.run ⟨["b"]⟩ {}).run.executions strict) := by
  have hplace : strict.tree.walk false strict.here ⟨.one, ["a"]⟩ = .ok ["a"] := by cbv
  have hfolder : strict.tree.walk true strict.here (Path.mk .one ["b"]) = .ok ["b"] := by cbv
  have hheld : held strict ⟨.one, ["a"]⟩ = some [97] := by cbv
  refine ⟨hheld, run_crash_safe ⟨Tree.sound_of_entries (by decide), rfl⟩ (fun _ _ _ => rfl)
    ⟨fun q hq => ?_, fun hup => absurd hup (by decide)⟩ (by rw [hheld]; decide)⟩
  rw [← Except.ok.inj (hplace.symm.trans hq)]
  refine ⟨rfl, fun folder hwalk => ?_⟩
  rw [Except.ok.inj (hwalk.symm.trans hfolder)]
  decide

/-- Two of the ways in which missing folders are seen. A new folder above the file may have the name
of a server file; and where a path leads through a missing folder and back with `..`, making that
folder brings the path to a file that was not read before and is not backed up. -/
theorem run_makes_folders :
    (let s : Save := { path := ⟨.one, ["d.conf", "a"]⟩, content := [98], artifact := "a" }
     strict.tree.walk false strict.here s.path = .error .noEntry ∧ held strict s.path = none ∧
       Telling "d.conf" ∧ strict.tree.get? ["d.conf"] = none ∧
       ∃ v, (s.run ⟨["b"]⟩ {}).run.Passes strict v ∧ v.tree.get? ["d.conf"] = some .folder ∧
         ["d.conf"].dropLast ≠ ["b"] ∧ ["d.conf"] ≠ ["d.conf", "a"]) ∧
    (let s : Save := { path := ⟨.one, ["d", "..", "a"]⟩, content := [98], artifact := "a" }
     strict.tree.walk false strict.here s.path = .error .noEntry ∧ held strict s.path = none ∧
       ∃ v, (s.run ⟨["b"]⟩ {}).run.Passes strict v ∧ v.read s.path = .ok [97]) := by
  refine ⟨⟨by cbv, by cbv, .inl (by decide), rfl, ?_⟩, by cbv, by cbv, ?_⟩
  · refine ⟨_, Plan.passes_worldAfter 9 _ _, ?_, by decide, by decide⟩
    cbv
  · refine ⟨_, Plan.passes_worldAfter 10 _ _, ?_⟩
    cbv

end ConfigSteward.Save
