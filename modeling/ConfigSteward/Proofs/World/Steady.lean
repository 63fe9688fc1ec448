import ConfigSteward.Proofs.World.Replacing

/-!
# Paths that end at no link

A replacement sets the place at which the path ends. On a steady path that is never the place of a
link, not even after the folders on the way were made, so what was set can be found and set again.
-/
namespace ConfigSteward.World

variable {w v u : World} {p : Path} {place goal : Place} {bytes : Bytes} {mode : Nat}

/-- The path lands, or there are no links at all, or it is written without `..` and ends at none. -/
def Steady (w : World) (p : Path) : Prop :=
  (∃ place, w.Lands p place) ∨ w.tree.Linkless ∨ ".." ∉ p.parts ∧
    ∀ q target, w.tree.walk false w.here p = .ok q → w.tree.get? q ≠ some (.link target)

theorem Steady.of_skeleton (h : w.Steady p) (hsame : ∀ q, v.tree.skeleton q = w.tree.skeleton q)
    (hhere : v.here = w.here) : v.Steady p := by
  have hlink (q : Place) (target : String) :
      v.tree.get? q = some (.link target) ↔ w.tree.get? q = some (.link target) := by
    rw [← Tree.skeleton_eq_link_iff, ← Tree.skeleton_eq_link_iff, hsame]
  rcases h with ⟨place, h⟩ | h | ⟨hup, h⟩
  · exact .inl ⟨place, h.of_skeleton hsame hhere⟩
  · exact .inr (.inl fun q target hq => h q target ((hlink q target).mp hq))
  · refine .inr (.inr ⟨hup, fun q target hwalk hq => ?_⟩)
    rw [hhere] at hwalk
    exact h q target (Tree.walk_mono (.of_eq fun q => (hsame q).symm) hwalk) ((hlink q target).mp hq)

/-- Where folders were made on the way, a path without `..` names nothing. -/
theorem Dug.fresh (h : w.Dug p.parent u) (hw : w.Sound) (hup : ".." ∉ p.parts)
    (hwalk : u.tree.walk false u.here p = .ok place) : u = w ∨ u.tree.get? place = none := by
  obtain ⟨t, ht, rfl⟩ := h
  have hstart := Tree.get?_start hw.here p
  rcases List.eq_nil_or_concat p.parts with hp | ⟨front, name, hp⟩
  · have hnames : p.parent.parts = [] := by simp [Path.parent, hp]
    rw [hnames] at ht
    rw [ht.eq_of_stands hw.tree hstart .stop hstart]
    exact .inl rfl
  · rw [List.concat_eq_append] at hp
    have hnames : p.parent.parts = front := by simp [Path.parent, hp]
    rw [hnames] at ht
    have hleads := (Tree.walk_eq_ok_iff.mp hwalk).2
    rw [hp] at hleads hup
    rcases ht.fresh hw.tree hstart hup hleads with rfl | hnone
    · exact .inl rfl
    · exact .inr hnone

/-- What a replacement on a steady path sets is no link. -/
theorem Replaces.lands (h : w.Replaces p u goal mode) (hw : w.Sound) (hp : w.Steady p) :
    u.Lands p goal := by
  refine lands_of_walk h.walk h.noFolder fun target hlink => ?_
  rcases hp with ⟨place, hlands⟩ | hlinkless | ⟨hup, hend⟩
  · obtain rfl := (hlands.stands_parent hw).eq_of_dug hw h.dug
    obtain rfl := Except.ok.inj (hlands.walk.symm.trans h.walk)
    exact hlands.ne_link target hlink
  · obtain ⟨t, ht, rfl⟩ := h.dug
    exact ht.linkless hlinkless goal target hlink
  · rcases h.dug.fresh hw hup h.walk with rfl | hnone
    · exact hend goal target h.walk hlink
    · rw [hnone] at hlink
      cases hlink

/-- A steady path that can be read lands. -/
theorem Steady.lands_of_read (h : w.Steady p) (hread : w.read p = .ok bytes) :
    ∃ place mode changed, w.Lands p place ∧
      w.tree.get? place = some (.file bytes mode changed) := by
  unfold read onNode at hread
  rcases hwalk : w.tree.walk true w.here p with cause | place
  · simp [hwalk, fault] at hread
  rcases hget : w.tree.get? place with _ | ⟨content, mode, changed⟩ | _ | target
  · simp [hwalk, hget, fault] at hread
  · simp only [hwalk, hget, Except.ok.injEq] at hread
    subst hread
    obtain ⟨hlen, hleads⟩ := Tree.walk_eq_ok_iff.mp hwalk
    obtain ⟨q, hq, hend⟩ := hleads.stop_at_link
    have hwalk' := Tree.walk_eq_ok_iff.mpr ⟨hlen, hq⟩
    have hq' : q = place := by
      rcases hend with hend | ⟨target, hlink⟩
      · exact hend
      · rcases h with ⟨place', hlands⟩ | hlinkless | ⟨-, hnolink⟩
        · obtain rfl := Except.ok.inj (hlands.walk.symm.trans hwalk')
          exact absurd hlink (hlands.ne_link target)
        · exact absurd hlink (hlinkless q target)
        · exact absurd hlink (hnolink q target hwalk')
    subst hq'
    exact ⟨q, mode, changed, ⟨hwalk', Tree.skeleton_of_file hget⟩, hget⟩
  · simp [hwalk, hget, fault] at hread
  · simp [hwalk, hget, fault] at hread

/-- On a path that lands a replacement makes no folder and sets the place that the path names. -/
theorem Replaces.of_lands (h : w.Replaces p u goal mode) (hw : w.Sound) (hlands : w.Lands p place) :
    u = w ∧ goal = place ∧ mode = w.tree.modeOver place := by
  obtain rfl := (hlands.stands_parent hw).eq_of_dug hw h.dug
  have hgoal : goal = place := Except.ok.inj (h.walk.symm.trans hlands.walk)
  subst hgoal
  exact ⟨rfl, rfl, h.mode hlands.leaf⟩

theorem Dug.of_lands (h : w.Dug p.parent u) (hw : w.Sound) (hlands : w.Lands p place) : u = w :=
  (hlands.stands_parent hw).eq_of_dug hw h

end ConfigSteward.World
