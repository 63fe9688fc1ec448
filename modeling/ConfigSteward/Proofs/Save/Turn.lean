import ConfigSteward.Proofs.Save.Observing
import ConfigSteward.Proofs.Save.Settling

/-!
# What a save leaves to whoever comes next

The places of backups other than the file's own hold what they held or, where nothing was, the
prior content of the file, perhaps not yet in full. The file holds what it held before, or the new
content if that passed its check; a save that is rolled back leaves the file readable or not, and
with the bytes, as it was.
-/
namespace ConfigSteward

open Plan World

variable {w u v : World} {p : Path} {q live : Place} {content : Bytes}
  {part : Bytes → Bytes → Prop} {store : Store}

/-- At the places of backups besides `live` nothing that was there is touched; what is new is a
folder or a file with a part of the content. -/
def Store.Spares (store : Store) (part : Bytes → Bytes → Prop) (w : World) (live : Place)
    (content : Bytes) (v : World) : Prop :=
  ∀ q, store.Owns q → q ≠ live → v.tree.get? q = w.tree.get? q ∨ w.tree.get? q = none ∧
    (v.tree.get? q = some .folder ∨
      ∃ bytes mode changed, v.tree.get? q = some (.file bytes mode changed) ∧ part bytes content)

namespace Store.Spares

theorem of_alike (hv : w.Alike v) : store.Spares part w live content v :=
  fun q _ _ => .inl (by rw [hv.1])

theorem mono {part' : Bytes → Bytes → Prop} (h : store.Spares part w live content v)
    (hpart : ∀ bytes, part bytes content → part' bytes content) :
    store.Spares part' w live content v := by
  intro q hq hlive
  rcases h q hq hlive with heq | ⟨hnone, hfolder | ⟨bytes, mode, changed, hfile, hbytes⟩⟩
  · exact .inl heq
  · exact .inr ⟨hnone, .inl hfolder⟩
  · exact .inr ⟨hnone, .inr ⟨bytes, mode, changed, hfile, hpart bytes hbytes⟩⟩

/-- What comes after touches no place of a backup but to make folders. -/
theorem frame (h : store.Spares part w live content u)
    (hframe : ∀ q, store.Owns q → q ≠ live → v.tree.get? q = u.tree.get? q ∨
      u.tree.get? q = none ∧ v.tree.get? q = some .folder) :
    store.Spares part w live content v := by
  intro q hq hlive
  rcases hframe q hq hlive with heq | ⟨hnone, hfolder⟩
  · rw [heq]
    exact h q hq hlive
  · rcases h q hq hlive with heq | ⟨-, hfolder' | ⟨_, _, _, hfile, -⟩⟩
    · exact .inr ⟨heq ▸ hnone, .inl hfolder⟩
    · rw [hnone] at hfolder'
      cases hfolder'
    · rw [hnone] at hfile
      cases hfile

theorem trans_alike (h : store.Spares part w live content u) (hv : u.Alike v) :
    store.Spares part w live content v :=
  h.frame fun q _ _ => .inl (by rw [hv.1])

private theorem trans_dug (h : store.Spares part w live content u) (hv : u.Dug p v) :
    store.Spares part w live content v := by
  obtain ⟨t, ht, rfl⟩ := hv
  exact h.frame fun q _ _ => ht.entry q

theorem trans_sets {node : Option Node} {place : Place} (h : store.Spares part w live content u)
    (hset : u.tree.Sets place node v.tree) (hplace : ¬ store.Owns place ∨ place = live) :
    store.Spares part w live content v := by
  refine h.frame fun q hq hlive => .inl (hset.other ?_)
  rintro rfl
  rcases hplace with hnot | heq
  · exact hnot hq
  · exact hlive heq

theorem trans_put {node : Node} {place : Place} (h : store.Spares part w live content u)
    (hput : v.tree = u.tree.put place node) (hne : place ≠ [])
    (hplace : ¬ store.Owns place ∨ place = live) : store.Spares part w live content v :=
  h.trans_sets (hput ▸ Tree.put_sets hne node) hplace

theorem bytesAt {bytes : Bytes} (h : store.Spares part w live content v) (hq : store.Owns q)
    (hlive : q ≠ live) (hbytes : v.tree.bytesAt q = some bytes) :
    w.tree.bytesAt q = some bytes ∨ part bytes content := by
  rcases h q hq hlive with heq | ⟨-, hfolder | ⟨bytes', mode, changed, hfile, hpart⟩⟩
  · exact .inl ((Tree.bytesAt_congr heq).symm.trans hbytes)
  · simp [Tree.bytesAt, hfolder] at hbytes
  · rw [Tree.bytesAt, hfile] at hbytes
    exact .inr (Option.some.inj hbytes ▸ hpart)

theorem kept {bytes : Bytes} (h : store.Spares part w live content v) (hq : store.Owns q)
    (hlive : q ≠ live) (hbytes : w.tree.bytesAt q = some bytes) : v.tree.bytesAt q = some bytes := by
  rcases h q hq hlive with heq | ⟨hnone, -⟩
  · exact (Tree.bytesAt_congr heq).trans hbytes
  · simp [Tree.bytesAt, hnone] at hbytes

theorem of_withFile {bytes : Bytes} {place : Place} (hplace : place ≠ [])
    (hnone : w.tree.get? place = none) (hbytes : part bytes content) :
    store.Spares part w live content (w.withFile place bytes) := by
  have hset : w.tree.Sets place _ (w.withFile place bytes).tree := Tree.put_sets hplace _
  intro q _ _
  by_cases hq : q = place
  · subst hq
    exact .inr ⟨hnone, .inr ⟨bytes, _, _, hset.self, hbytes⟩⟩
  · exact .inl (hset.other hq)

end Store.Spares

theorem Store.not_owns_temp (store : Store) (r : Place) (base : String) (n : Nat) :
    ¬ store.Owns (r ++ [tempName base n]) := by
  rintro ⟨name, hends, heq⟩
  rw [← List.singleton_inj.mp (List.append_inj_right' heq rfl)] at hends
  exact Save.not_telling_tempName base n (.inr hends)

theorem Store.Slot.place_eq {artifact name : String} {place : Place}
    (h : store.Slot w artifact name place) (hw : w.Regular) (hs : ".." ∉ store.folder) :
    place = store.folder ++ [name] :=
  (hw.place_eq h.lands.walk).trans (Store.placeFrom_pathOf hs h.endsIn w.here)

theorem Store.Slot.owns {artifact name : String} {place : Place}
    (h : store.Slot w artifact name place) : store.Owns (store.folder ++ [name]) :=
  ⟨name, h.endsIn, rfl⟩

/-- A backup's place is not that of the file that is backed up. -/
theorem Store.Slot.ne_live {name : String} {place : Place} (h : store.Slot w p.name name place)
    (hw : w.Regular) (hs : ".." ∉ store.folder) : place ≠ p.placeFrom w.here := by
  have hsafe := h.safe
  have hup : p.name ≠ ".." := by
    intro heq
    simp [heq, Name.isSafe] at hsafe
  have hparts : p.parts ≠ [] := by
    intro heq
    simp [Path.name, heq, Name.isSafe] at hsafe
  obtain ⟨counter, -, hname⟩ := h.named
  rw [h.place_eq hw hs, ← Path.child_parent_name hparts, Path.placeFrom_child _ _ hup]
  intro heq
  have hsame := List.singleton_inj.mp (List.append_inj_right' heq rfl)
  rw [hname] at hsame
  exact Name.writeBackup_ne _ _ _ hsame

namespace Save

variable {s : Save} {c : Controller} {prior : Option Bytes} {name : String} {place goal : Place}
  {mode : Nat} {r : Except Failure Outcome} {es : List Execution}

theorem Backs.spares (backs : s.Backs store w prior name place) :
    store.Spares (· = ·) w (s.path.placeFrom w.here) ((w.held s.path).getD [])
      (s.stored w prior place) := by
  rw [backs.prior.held_eq]
  exact (Store.Spares.of_withFile backs.slot.lands.ne_nil backs.slot.vacant rfl).trans_alike
    ⟨rfl, rfl⟩

section
variable (hw : w.Regular)
include hw

theorem Writes.spares {node : Option Node} {u : World}
    (writes : s.Writes store w prior name place u goal mode) (hset : u.tree.Sets goal node v.tree) :
    store.Spares (· = ·) w (s.path.placeFrom w.here) ((w.held s.path).getD []) v :=
  (writes.backs.spares.trans_dug writes.replaces.dug).trans_sets hset (.inr (writes.goal_eq hw))

theorem Writes.spares_written (writes : s.Writes store w prior name place u goal mode) :
    store.Spares (· = ·) w (s.path.placeFrom w.here) ((w.held s.path).getD [])
      (s.written u goal mode) :=
  writes.spares hw (Tree.put_sets (writes.lands hw).ne_nil _)

/-- In the middle of a save. -/
theorem Phase.spares (h : s.Phase store w prior name place v) :
    store.Spares (· <+: ·) w (s.path.placeFrom w.here) ((w.held s.path).getD []) v := by
  have hpart (bytes content : Bytes) (heq : bytes = content) : bytes <+: content :=
    heq ▸ List.prefix_rfl
  have hstored (backs : s.Backs store w prior name place) :=
    backs.spares.mono (fun bytes => hpart bytes _)
  cases h with
  | before hv => exact .of_alike hv
  | copying k backs hv =>
    refine (Store.Spares.of_withFile backs.slot.lands.ne_nil backs.slot.vacant ?_).trans_alike hv
    rw [backs.prior.held_eq]
    exact List.take_prefix k _
  | replacing backs replacing hv =>
    cases replacing with
    | dug hdug => exact ((hstored backs).trans_dug hdug).trans_alike hv
    | temp hdug vacant =>
      exact (((hstored backs).trans_dug hdug).trans_put rfl (by simp)
        (.inl (store.not_owns_temp _ _ _))).trans_alike hv
    | done replaces =>
      have writes : s.Writes store w prior name place _ _ _ := ⟨backs, replaces⟩
      exact ((writes.spares_written hw).mono fun bytes => hpart bytes _).trans_alike hv
  | @puttingBack u x y goal mode backs replaces saved puttingBack hv =>
    have writes : s.Writes store w prior name place u goal mode := ⟨backs, replaces⟩
    have hwritten := ((writes.spares_written hw).mono fun bytes => hpart bytes _).trans_alike saved
    cases puttingBack with
    | start => exact hwritten.trans_alike hv
    | temp vacant =>
      exact (hwritten.trans_put rfl (by simp)
        (.inl (store.not_owns_temp _ _ _))).trans_alike hv
    | done =>
      have hset := Tree.putBack_sets (t := u.tree) (writes.lands hw).ne_nil mode prior
      exact ((writes.spares hw hset).mono fun bytes => hpart bytes _).trans_alike hv

end
end Save

/-- What whoever comes next finds at a file after one that had its turn: `committed` tells the bytes
that were put in place for good, `restored` whether the file was put back, `reported` the name under
which it was backed up. -/
structure Turn (store : Store) (p : Path) (w v : World) (committed : Bytes → Prop)
    (restored : Prop) (reported : String → Prop) : Prop where
  spares : store.Spares (· = ·) w (p.placeFrom w.here) ((w.held p).getD []) v
  commits : ∀ bytes, committed bytes → v.read p = .ok bytes
  content : ∀ bytes, v.tree.bytesAt (p.placeFrom w.here) = some bytes →
    committed bytes ∨ w.tree.bytesAt (p.placeFrom w.here) = some bytes
  restores : restored → v.held p = w.held p
  reports : ∀ name, reported name → store.Owns (store.folder ++ [name]) ∧
    store.folder ++ [name] ≠ p.placeFrom w.here ∧
      v.tree.bytesAt (store.folder ++ [name]) = some ((w.held p).getD [])

namespace Turn

variable {committed : Bytes → Prop} {restored : Prop} {reported : String → Prop}

theorem of_alike (hv : w.Alike v) (hcommitted : ∀ bytes, ¬ committed bytes)
    (hreported : ∀ name, ¬ reported name) : Turn store p w v committed restored reported where
  spares := .of_alike hv
  commits bytes h := absurd h (hcommitted bytes)
  content bytes h := .inr (by rwa [hv.1] at h)
  restores _ := by rw [held, held, hv.read_eq]
  reports name h := absurd h (hreported name)

end Turn

namespace Save

variable {s : Save} {c : Controller} {prior : Option Bytes} {name : String} {place goal : Place}
  {mode : Nat} {r : Except Failure Outcome} {es : List Execution}

/-- The turn of a save. -/
def Turns (s : Save) (store : Store) (w v : World) (r : Except Failure Outcome) : Prop :=
  Turn store s.path w v
    (fun bytes => ∃ o, r = .ok o ∧ o.validated = true ∧ bytes = s.content)
    (∃ o, r = .ok o ∧ o.rolledBack = true) fun name => ∃ o, r = .ok o ∧ o.backup = some name

theorem Writes.bytesAt_place {node : Option Node} {u : World}
    (writes : s.Writes store w prior name place u goal mode) (hset : u.tree.Sets goal node v.tree)
    (hne : place ≠ goal) : v.tree.bytesAt place = some (prior.getD []) :=
  Tree.bytesAt_eq_some_iff.mpr
    ⟨_, _, (hset.other hne).trans (writes.backs.dug writes.replaces.dug).1⟩

/-- What the prior content is can be told from the place. -/
theorem Prior.bytesAt (hw : w.Regular) {bytes : Bytes} (h : Prior w p (some bytes)) :
    w.tree.bytesAt (p.placeFrom w.here) = some bytes := by
  obtain ⟨-, mode, changed, hfile⟩ := hw.of_read h
  exact Tree.bytesAt_eq_some_iff.mpr ⟨mode, changed, hfile⟩

section
variable (hw : w.Regular) (hs : ".." ∉ store.folder) (hartifact : s.artifact = s.path.name)
include hw hs hartifact

theorem Backs.ne_live (backs : s.Backs store w prior name place) :
    place ≠ s.path.placeFrom w.here := Store.Slot.ne_live (hartifact ▸ backs.slot) hw hs

/-- A save that failed to write leaves no more than folders and the backup. -/
theorem Backs.turns_dug (backs : s.Backs store w prior name place)
    (hdug : (s.stored w prior place).Dug s.path.parent v) (message : Option String) :
    s.Turns store w v
      (.ok { s.backedUp name with error := some .writeFailed, message := message }) := by
  refine ⟨backs.spares.trans_dug hdug, ?_, fun bytes hbytes => .inr ?_, ?_, ?_⟩
  · rintro bytes ⟨o, ⟨⟩, hvalidated, -⟩
    cases hvalidated
  · have halters : (s.stored w prior place).Alters v fun _ => False := .of_dug hdug
    have hkept : v.tree.bytesAt (s.path.placeFrom w.here)
        = (s.stored w prior place).tree.bytesAt (s.path.placeFrom w.here) := halters.bytesAt id
    rw [hkept, Tree.bytesAt_congr (backs.other (Ne.symm (backs.ne_live hw hs hartifact)))] at hbytes
    exact hbytes
  · rintro ⟨o, ⟨⟩, hback⟩
    cases hback
  · rintro name' ⟨o, ⟨⟩, hbackup⟩
    cases hbackup
    refine ⟨backs.slot.owns, ?_⟩
    rw [← backs.slot.place_eq hw hs, backs.prior.held_eq]
    refine ⟨backs.ne_live hw hs hartifact, ?_⟩
    exact Tree.bytesAt_eq_some_iff.mpr ⟨_, _, (backs.dug hdug).1⟩

/-- A save that is rolled back puts the file back. -/
theorem Writes.turns_rejected (writes : s.Writes store w prior name place u goal mode)
    (result : CommandResult) :
    s.Turns store w { (s.written u goal mode).hasRun (s.checkArgs c) with
      tree := u.tree.putBack goal mode prior } (.ok (s.rejected name result)) := by
  have hset := Tree.putBack_sets (t := u.tree) (writes.lands hw).ne_nil mode prior
  have hgoal := writes.goal_eq hw
  have hlands : World.Lands { (s.written u goal mode).hasRun (s.checkArgs c) with
      tree := u.tree.putBack goal mode prior } s.path goal :=
    (writes.lands hw).of_skeleton (hset.skeleton_eq (writes.lands hw).leaf (leaf_of_sets hset)) rfl
  refine ⟨writes.spares hw hset, ?_, fun bytes hbytes => .inr ?_, fun _ => ?_, ?_⟩
  · rintro bytes ⟨o, ⟨⟩, hvalidated, -⟩
    cases hvalidated
  · rw [← hgoal, Tree.bytesAt, hset.self] at hbytes
    cases prior with
    | none => cases hbytes
    | some bytes' =>
      cases hbytes
      exact writes.backs.prior.bytesAt hw
  · rw [writes.backs.prior.held_eq]
    cases prior with
    | none => rw [held, hlands.read_vacant hset.self]; rfl
    | some bytes => exact held_eq_some_iff.mpr (hlands.read_file hset.self)
  · rintro name' ⟨o, ⟨⟩, hbackup⟩
    cases hbackup
    have hne := writes.backs.ne_live hw hs hartifact
    refine ⟨writes.backs.slot.owns, ?_⟩
    rw [← writes.backs.slot.place_eq hw hs, writes.backs.prior.held_eq]
    exact ⟨hne, writes.bytesAt_place hset (hgoal ▸ hne)⟩

/-- A save whose content passed its check leaves that content. -/
theorem Writes.turns_accepted (writes : s.Writes store w prior name place u goal mode)
    (hv : (s.written u goal mode).Alike v) {o : Outcome} (hvalidated : o.validated = true)
    (hback : o.rolledBack = false) (hbackup : o.backup = some name) :
    s.Turns store w v (.ok o) := by
  have hset : u.tree.Sets goal _ (s.written u goal mode).tree :=
    Tree.put_sets (writes.lands hw).ne_nil _
  refine ⟨(writes.spares_written hw).trans_alike hv, ?_, fun bytes hbytes => .inl ?_, ?_, ?_⟩
  · rintro bytes ⟨o', ⟨⟩, -, rfl⟩
    rw [hv.read_eq]
    exact writes.replaces.read_new (writes.backs.regular hw) s.content
  · rw [hv.1, ← writes.goal_eq hw, Tree.bytesAt, hset.self] at hbytes
    cases hbytes
    exact ⟨o, rfl, hvalidated, rfl⟩
  · rintro ⟨o', ⟨⟩, htrue⟩
    rw [hback] at htrue
    cases htrue
  · rintro name' ⟨o', ⟨⟩, hname⟩
    obtain rfl := Option.some.inj (hbackup.symm.trans hname)
    have hne := writes.backs.ne_live hw hs hartifact
    refine ⟨writes.backs.slot.owns, ?_⟩
    rw [← writes.backs.slot.place_eq hw hs, writes.backs.prior.held_eq, hv.1]
    exact ⟨hne, writes.bytesAt_place hset (writes.goal_eq hw ▸ hne)⟩

theorem Ends.turns (h : s.Ends store c w prior name place r v es) : s.Turns store w v r := by
  cases h with
  | looped =>
    refine .of_alike (.refl w) ?_ ?_
    · rintro bytes ⟨o, ⟨⟩, -⟩
    · rintro name ⟨o, ⟨⟩, -⟩
  | refused message hv =>
    refine .of_alike (alike_of_noting hv) ?_ ?_
    · rintro bytes ⟨o, ⟨⟩, hvalidated, -⟩
      cases hvalidated
    · rintro name ⟨o, ⟨⟩, hbackup⟩
      cases hbackup
  | unwritten message backs dug => exact backs.turns_dug hw hs hartifact dug message
  | rejected writes => exact writes.turns_rejected hw hs hartifact _
  | @accepted u goal mode result writes =>
    refine writes.turns_accepted hw hs hartifact ?_ rfl rfl rfl
    exact ⟨rfl, rfl⟩
  | @reloaded u goal mode result result' writes =>
    have hafter : ∀ o : Outcome, (o.afterReload result').validated = o.validated ∧
        (o.afterReload result').rolledBack = o.rolledBack ∧
          (o.afterReload result').backup = o.backup := by
      intro o
      unfold Outcome.afterReload
      rcases result'.exitOk <;> rcases result'.timedOut <;> exact ⟨rfl, rfl, rfl⟩
    obtain ⟨hvalidated, hback, hbackup⟩ := hafter (s.checked name result)
    refine writes.turns_accepted hw hs hartifact ?_ hvalidated hback hbackup
    exact ⟨rfl, rfl⟩

end
end Save
end ConfigSteward
