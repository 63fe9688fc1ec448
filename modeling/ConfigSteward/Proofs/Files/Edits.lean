import ConfigSteward.Proofs.Files.Children
import Mathlib.Logic.Relation

/-!
# Trees that come of others by edits

An edit is what one call of the system may do to a tree: it writes a file or makes a folder in a folder
that is there, or takes entries away. Edits keep a tree sound and without places entered twice, and they
make no link.
-/
namespace ConfigSteward.Tree

variable {t t' t'' : Tree} {p q : Place} {target : String}

theorem get?_removeAll (hq : q ≠ []) :
    (t.removeAll p).get? q = if p <+: q then none else t.get? q := by
  rw [get?, get?, if_neg hq, if_neg hq, removeAll, List.find?_filter]
  by_cases habove : p <+: q
  · rw [if_pos habove, Option.map_eq_none_iff, List.find?_eq_none]
    rintro e - he
    simp only [decide_eq_true_eq, Bool.not_eq_true'] at he
    rw [he.2, List.isPrefixOf_iff_prefix.mpr habove] at he
    cases he.1
  · rw [if_neg habove]
    congr 2
    funext e
    by_cases he : e.1 = q
    · simpa [he, ← List.isPrefixOf_iff_prefix] using habove
    · simp [he]

/-- `t'` is what one edit leaves of `t`. -/
inductive Edit (t : Tree) : Tree → Prop where
  | write {p : Place} (leaf : t.skeleton p = none) (parent : t.get? p.dropLast = some .folder)
      (bytes : Bytes) (mode : Nat) (changed : Changed) :
      Edit t (t.put p (.file bytes mode changed))
  | make {p : Place} (vacant : t.get? p = none) (parent : t.get? p.dropLast = some .folder) :
      Edit t (t.put p .folder)
  | unlink {p : Place} (entry : t.get? p ≠ some .folder) : Edit t (t.remove p)
  | clear (p : Place) : Edit t (t.removeAll p)

namespace Edit

theorem sound (h : t.Edit t') (ht : t.Sound) : t'.Sound := by
  cases h with
  | write leaf parent =>
    have hset := put_sets (t := t) (ne_nil_of_leaf leaf)
    refine (hset _).sound ht (fun hfolder => ?_) parent
    rw [skeleton_eq_folder_iff.mpr hfolder] at leaf
    cases leaf
  | make vacant parent =>
    have hset := put_sets (t := t) (ne_nil_of_leaf (skeleton_of_vacant vacant))
    exact (hset _).sound ht (by simp [vacant]) parent
  | @unlink p entry =>
    have hp : p ≠ [] := by
      rintro rfl
      simp at entry
    intro q node hq hget
    rw [remove_sets hp q] at hget
    by_cases hqp : q = p
    · simp [hqp] at hget
    · rw [if_neg hqp] at hget
      have hfolder := ht q node hq hget
      rw [(remove_sets hp).other (fun heq => entry (heq ▸ hfolder)), hfolder]
  | clear p =>
    intro q node hq hget
    rw [get?_removeAll hq] at hget
    by_cases habove : p <+: q
    · simp [habove] at hget
    · rw [if_neg habove] at hget
      have hfolder := ht q node hq hget
      by_cases hnil : q.dropLast = []
      · simp [hnil]
      · rw [get?_removeAll hnil, if_neg fun h => habove (h.trans q.dropLast_prefix), hfolder]

theorem distinct (h : t.Edit t') (ht : t.Distinct) : t'.Distinct := by
  cases h with
  | write | make => exact ht.put _ _
  | unlink => exact ht.remove _
  | clear => exact ht.sublist (List.filter_sublist.map _)

/-- The links of a tree after an edit were there before. -/
theorem link (h : t.Edit t') (hlink : t'.get? q = some (.link target)) :
    t.get? q = some (.link target) := by
  have hq : q ≠ [] := by
    rintro rfl
    simp at hlink
  cases h with
  | @write p | @make p =>
    rw [get?_put _ _ _ _ hq] at hlink
    by_cases hqp : q = p
    · simp [hqp] at hlink
    · rwa [if_neg hqp] at hlink
  | @unlink p =>
    rw [get?_remove _ _ _ hq] at hlink
    by_cases hqp : q = p
    · simp [hqp] at hlink
    · rwa [if_neg hqp] at hlink
  | clear p =>
    rw [get?_removeAll hq] at hlink
    by_cases habove : p <+: q
    · simp [habove] at hlink
    · rwa [if_neg habove] at hlink

end Edit

/-- `t'` comes of `t` by edits, one after the other, if `t` is sound. -/
def Edits (t t' : Tree) : Prop := t.Sound → Relation.ReflTransGen Edit t t'

namespace Edits

theorem refl (t : Tree) : t.Edits t := fun _ => .refl

theorem of_eq (h : t' = t) : t.Edits t' := h ▸ refl t

theorem single (h : t.Sound → t.Edit t') : t.Edits t' := fun ht => .single (h ht)

theorem sound (h : t.Edits t') (ht : t.Sound) : t'.Sound := by
  have hsteps := h ht
  clear h
  induction hsteps with
  | refl => exact ht
  | tail _ hedit ih => exact hedit.sound ih

theorem trans (h : t.Edits t') (h' : t'.Edits t'') : t.Edits t'' :=
  fun ht => (h ht).trans (h' (h.sound ht))

theorem distinct (h : t.Edits t') (ht : t.Sound) (hdistinct : t.Distinct) : t'.Distinct := by
  have hsteps := h ht
  clear h
  induction hsteps with
  | refl => exact hdistinct
  | tail _ hedit ih => exact hedit.distinct ih

theorem link (h : t.Edits t') (ht : t.Sound) (hlink : t'.get? q = some (.link target)) :
    t.get? q = some (.link target) := by
  have hsteps := h ht
  clear h
  induction hsteps with
  | refl => exact hlink
  | tail _ hedit ih => exact ih (hedit.link hlink)

end Edits
end ConfigSteward.Tree
