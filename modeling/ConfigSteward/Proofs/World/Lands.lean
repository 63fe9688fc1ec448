import ConfigSteward.Proofs.Files.Sound
import ConfigSteward.World.Perform

/-!
# File calls on a path that lands

A path lands at a place if it leads there and the place holds a file or nothing. What a call does on
such a path depends on that place alone, and no change to files moves the place.
-/
namespace ConfigSteward

namespace Tree

theorem walk_eq_ok_iff {t : Tree} {follow : Bool} {here place : Place} {p : Path} :
    t.walk follow here p = .ok place ↔
      p.text.utf8ByteSize ≤ longestPath ∧
        t.Leads follow linkBudget (p.start here) p.parts place := by
  unfold walk
  split
  · next h => simp [Nat.not_le.mpr h]
  · next h => rw [walkFrom_eq_ok_iff, and_iff_right (Nat.not_lt.mp h)]

theorem walk_mono {t t' : Tree} (hbelow : t.Below t') {follow : Bool} {here place : Place}
    {p : Path} (h : t.walk follow here p = .ok place) : t'.walk follow here p = .ok place := by
  obtain ⟨hlen, hleads⟩ := walk_eq_ok_iff.mp h
  exact walk_eq_ok_iff.mpr ⟨hlen, hleads.mono hbelow⟩

end Tree

namespace World

variable {w v u : World} {p source target : Path} {place goal : Place} {bytes : Bytes} {mode : Nat}
  {changed : Changed}

/-- Every entry lies in a folder, and so does what relative paths start from. -/
structure Sound (w : World) : Prop where
  tree : w.tree.Sound
  here : w.tree.get? w.here = some .folder

/-- The path names a place that holds a file or nothing. -/
structure Lands (w : World) (p : Path) (place : Place) : Prop where
  walk : w.tree.walk false w.here p = .ok place
  leaf : w.tree.skeleton place = none

/-- What a file holds; `none` if it cannot be read. -/
def held (w : World) (p : Path) : Option Bytes := (w.read p).toOption

theorem held_eq_some_iff : w.held p = some bytes ↔ w.read p = .ok bytes := by
  unfold held
  rcases w.read p with f | content <;> simp [Except.toOption]

/-- What is read is the content of the file that the path leads to. -/
theorem read_eq_ok_iff : w.read p = .ok bytes ↔ ∃ q mode changed,
    w.tree.walk true w.here p = .ok q ∧ w.tree.get? q = some (.file bytes mode changed) := by
  unfold World.read World.onNode
  constructor
  · intro h
    split at h
    · cases h
    · next q hwalk =>
      split at h
      · next node hget =>
        cases node with
        | file bytes' mode changed =>
          cases h
          exact ⟨q, mode, changed, hwalk, hget⟩
        | folder | link => cases h
      · cases h
  · rintro ⟨q, mode, changed, hwalk, hget⟩
    simp only [hwalk, hget]

namespace Lands

theorem followed (h : w.Lands p place) : w.tree.walk true w.here p = .ok place := by
  obtain ⟨hlen, hleads⟩ := Tree.walk_eq_ok_iff.mp h.walk
  exact Tree.walk_eq_ok_iff.mpr ⟨hlen, hleads.follow_of_leaf h.leaf⟩

theorem ne_nil (h : w.Lands p place) : place ≠ [] := Tree.ne_nil_of_leaf h.leaf

theorem ne_folder (h : w.Lands p place) : w.tree.get? place ≠ some .folder := by
  intro hfolder
  have hleaf := h.leaf
  rw [Tree.skeleton_eq_folder_iff.mpr hfolder] at hleaf
  cases hleaf

theorem ne_link (h : w.Lands p place) (target : String) :
    w.tree.get? place ≠ some (.link target) := by
  intro hlink
  have hleaf := h.leaf
  rw [Tree.skeleton_eq_link_iff.mpr hlink] at hleaf
  cases hleaf

theorem mono (h : w.Lands p place) (hbelow : w.tree.Below v.tree) (hhere : v.here = w.here)
    (hleaf : v.tree.skeleton place = none) : v.Lands p place :=
  ⟨hhere ▸ Tree.walk_mono hbelow h.walk, hleaf⟩

theorem of_skeleton (h : w.Lands p place) (hsame : ∀ q, v.tree.skeleton q = w.tree.skeleton q)
    (hhere : v.here = w.here) : v.Lands p place :=
  h.mono (.of_eq hsame) hhere (by rw [hsame, h.leaf])

theorem read_file (h : w.Lands p place)
    (hfile : w.tree.get? place = some (.file bytes mode changed)) :
    w.read p = .ok bytes := by
  simp only [read, onNode, h.followed, hfile]

theorem read_vacant (h : w.Lands p place) (hnone : w.tree.get? place = none) :
    w.read p = fault .noEntry p := by
  simp only [read, onNode, h.followed, hnone]

theorem look_file (h : w.Lands p place)
    (hfile : w.tree.get? place = some (.file bytes mode changed)) :
    w.look p = .ok ⟨.file, mode, bytes.length, changed⟩ := by
  simp only [look, onNode, h.followed, hfile, statusOf]

theorem look_vacant (h : w.Lands p place) (hnone : w.tree.get? place = none) :
    w.look p = fault .noEntry p := by
  simp only [look, onNode, h.followed, hnone]

theorem vacancy_eq (h : w.Lands p place) (hnone : w.tree.get? place = none) :
    w.vacancy p = .ok place := by
  simp [vacancy, h.walk, hnone]

theorem alter_file (h : w.Lands p place)
    (hfile : w.tree.get? place = some (.file bytes mode changed))
    (f : Bytes → Nat → Changed → Node) :
    w.alter p f = (.ok (), { w with tree := w.tree.put place (f bytes mode changed) }) := by
  simp only [alter, h.followed, hfile]

theorem unlink_file (h : w.Lands p place)
    (hfile : w.tree.get? place = some (.file bytes mode changed)) :
    w.unlink p = (.ok (), { w with tree := w.tree.remove place }) := by
  simp only [unlink, h.walk, hfile]

end Lands

theorem lands_of_walk (hwalk : w.tree.walk false w.here p = .ok place)
    (hfolder : w.tree.get? place ≠ some .folder)
    (hlink : ∀ target, w.tree.get? place ≠ some (.link target)) : w.Lands p place := by
  refine ⟨hwalk, ?_⟩
  rcases hget : w.tree.get? place with _ | _ | _ | target
  · exact Tree.skeleton_of_vacant hget
  · exact Tree.skeleton_of_file hget
  · exact absurd hget hfolder
  · exact absurd hget (hlink target)

theorem vacancy_eq_ok_iff :
    w.vacancy p = .ok place ↔ w.Lands p place ∧ w.tree.get? place = none := by
  constructor
  · intro h
    unfold vacancy at h
    split at h
    · cases h
    · next q hwalk =>
      split at h
      · cases h
      · next hnone =>
        cases h
        rw [Option.not_isSome_iff_eq_none] at hnone
        exact ⟨⟨hwalk, Tree.skeleton_of_vacant hnone⟩, hnone⟩
  · rintro ⟨h, hnone⟩
    exact h.vacancy_eq hnone

/-- A new entry is made at the vacant place that the path names, or nothing happens. -/
theorem add_cases (w : World) (p : Path) (node : Node) :
    (∃ place, w.Lands p place ∧ w.tree.get? place = none ∧
      w.add p node = (.ok (), { w with tree := w.tree.put place node })) ∨
    ∃ f, w.vacancy p = .error f ∧ w.add p node = (.error f, w) := by
  unfold add
  rcases h : w.vacancy p with f | place
  · exact .inr ⟨f, rfl, rfl⟩
  · obtain ⟨hlands, hnone⟩ := vacancy_eq_ok_iff.mp h
    exact .inl ⟨place, hlands, hnone, rfl⟩

/-- A file that is moved over a file or onto a vacant place. -/
theorem move_file (hsource : w.Lands source place)
    (hfile : w.tree.get? place = some (.file bytes mode changed))
    (hwalk : w.tree.walk false w.here target = .ok goal) (hgoal : w.tree.get? goal ≠ some .folder)
    (hne : place ≠ goal) :
    w.move source target = (.ok (),
      { w with tree := (w.tree.remove place).put goal (.file bytes mode changed) }) := by
  simp only [move, hsource.walk, hwalk, hfile, hgoal, hne, if_false]

/-- A move that fails leaves all as it was. -/
theorem move_cases (hsource : w.Lands source place)
    (hfile : w.tree.get? place = some (.file bytes mode changed)) (target : Path) :
    (∃ goal, w.tree.walk false w.here target = .ok goal ∧ w.tree.get? goal ≠ some .folder) ∨
      ∃ f, w.move source target = (.error f, w) := by
  rcases hwalk : w.tree.walk false w.here target with cause | goal
  · exact .inr ⟨_, by simp only [move, hsource.walk, hwalk]; rfl⟩
  · by_cases hgoal : w.tree.get? goal = some .folder
    · exact .inr ⟨_, by simp only [move, hsource.walk, hwalk, hfile, hgoal, if_true]; rfl⟩
    · exact .inl ⟨goal, rfl, hgoal⟩

/-- Two worlds with the same files; clocks, readings and programs may differ. -/
def Alike (w v : World) : Prop := v.tree = w.tree ∧ v.here = w.here

theorem Alike.refl (w : World) : w.Alike w := ⟨rfl, rfl⟩

theorem Alike.symm (h : w.Alike v) : v.Alike w := ⟨h.1.symm, h.2.symm⟩

theorem Alike.trans (h : w.Alike v) (h' : v.Alike u) : w.Alike u :=
  ⟨h'.1.trans h.1, h'.2.trans h.2⟩

theorem Alike.sound (h : w.Alike v) (hw : w.Sound) : v.Sound := by
  obtain ⟨htree, hhere⟩ := h
  exact ⟨htree ▸ hw.tree, by rw [htree, hhere, hw.here]⟩

theorem Alike.lands (h : w.Alike v) (hp : w.Lands p place) : v.Lands p place := by
  obtain ⟨htree, hhere⟩ := h
  exact ⟨by rw [htree, hhere, hp.walk], by rw [htree, hp.leaf]⟩

theorem Alike.read_eq (h : w.Alike v) (p : Path) : v.read p = w.read p := by
  simp only [read, onNode, h.1, h.2]

end World
end ConfigSteward
