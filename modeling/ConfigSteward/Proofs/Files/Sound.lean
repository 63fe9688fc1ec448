import ConfigSteward.Proofs.Files.Leads
import Mathlib.Data.List.Induction

/-!
# Sound trees and single changes

In a sound tree every entry lies in a folder, so a walk ends at a folder or directly in one. `Sets`
says that one place changed and nothing else; sequences of file calls are described by it.
-/
namespace ConfigSteward

theorem Path.collapse_of_no_up {names : List String} (h : ".." ∉ names) (p : Place) :
    Path.collapse p names = p ++ names := by
  induction names generalizing p with
  | nil => simp [collapse]
  | cons name names ih =>
    rw [List.mem_cons, not_or] at h
    rw [collapse, if_neg (Ne.symm h.1), ih h.2, List.append_assoc, List.singleton_append]

namespace Tree

variable {t t' t'' : Tree} {follow : Bool} {links : Nat} {p q r : Place} {name : String}
  {names : List String} {node : Node} {n m : Option Node}

/-- Every entry lies in a folder. -/
def Sound (t : Tree) : Prop :=
  ∀ p n, p ≠ [] → t.get? p = some n → t.get? p.dropLast = some .folder

/-- Nothing in the tree is a link. -/
def Linkless (t : Tree) : Prop := ∀ p target, t.get? p ≠ some (.link target)

/-- `t'` is `t` with the entry of one place changed. -/
def Sets (t : Tree) (p : Place) (n : Option Node) (t' : Tree) : Prop :=
  ∀ q, t'.get? q = if q = p then n else t.get? q

theorem get?_mem (h : t.get? p = some node) (hp : p ≠ []) : (p, node) ∈ t.entries := by
  rw [get?, if_neg hp, Option.map_eq_some_iff] at h
  obtain ⟨⟨q, node'⟩, hfind, rfl⟩ := h
  have hq : q = p := by simpa using List.find?_some hfind
  exact hq ▸ List.mem_of_find?_eq_some hfind

theorem mem_entries_of_get? (h : t.get? p ≠ none) (hp : p ≠ []) : p ∈ t.entries.map (·.1) := by
  obtain ⟨node, hget⟩ := Option.ne_none_iff_exists'.mp h
  exact List.mem_map.mpr ⟨(p, node), get?_mem hget hp, rfl⟩

theorem pointsTo_iff : t.pointsTo name = true ↔
    ∃ p target, t.get? p = some (.link target) ∧ (Path.ofText target).name = name := by
  rw [pointsTo, List.any_eq_true]
  constructor
  · rintro ⟨⟨p, node⟩, -, hname⟩
    cases node with
    | link target =>
      obtain ⟨hname, hlink⟩ := Bool.and_eq_true_iff.mp hname
      exact ⟨p, target, of_decide_eq_true hlink, of_decide_eq_true hname⟩
    | file | folder => cases hname
  · rintro ⟨p, target, hlink, hname⟩
    have hp : p ≠ [] := by
      rintro rfl
      simp at hlink
    refine ⟨(p, .link target), get?_mem hlink hp, ?_⟩
    simp only [hlink, hname, decide_true, Bool.and_self]

theorem pointsTo_congr (h : ∀ q, t'.skeleton q = t.skeleton q) :
    t'.pointsTo name = t.pointsTo name := by
  rw [Bool.eq_iff_iff, pointsTo_iff, pointsTo_iff]
  simp only [← skeleton_eq_link_iff, h]

theorem Linkless.pointsTo_eq (h : t.Linkless) (name : String) : t.pointsTo name = false := by
  refine Bool.eq_false_iff.mpr fun hpoints => ?_
  obtain ⟨p, target, hlink, -⟩ := pointsTo_iff.mp hpoints
  exact h p target hlink

theorem sound_of_entries (h : ∀ e ∈ t.entries, t.get? e.1.dropLast = some .folder) : t.Sound :=
  fun p node hp hget => h (p, node) (get?_mem hget hp)

theorem linkless_of_entries (h : ∀ e ∈ t.entries, ∀ target, e.2 ≠ .link target) : t.Linkless := by
  intro p target hget
  by_cases hp : p = []
  · simp [hp] at hget
  · exact h (p, .link target) (get?_mem hget hp) target rfl

theorem put_sets (hp : p ≠ []) (node : Node) : t.Sets p (some node) (t.put p node) := by
  intro q
  by_cases hq : q = []
  · subst hq
    simp [Ne.symm hp]
  · exact get?_put t p q node hq

theorem remove_of_vacant (h : t.get? p = none) : t.remove p = t := by
  have hp : p ≠ [] := by
    rintro rfl
    simp at h
  rw [get?, if_neg hp, Option.map_eq_none_iff, List.find?_eq_none] at h
  obtain ⟨entries⟩ := t
  simp only [remove, mk.injEq, List.filter_eq_self, decide_eq_true_eq]
  intro e he heq
  simpa [heq] using h e he

@[simp] theorem remove_put (p : Place) (node : Node) : (t.put p node).remove p = t.remove p := by
  simp [put, remove, List.filter_filter]

@[simp] theorem put_put (node node' : Node) : (t.put p node).put p node' = t.put p node' := by
  simp [put, remove, List.filter_filter]

theorem remove_sets (hp : p ≠ []) : t.Sets p none (t.remove p) := by
  intro q
  by_cases hq : q = []
  · subst hq
    simp [Ne.symm hp]
  · exact get?_remove t p q hq

namespace Sets

theorem self (h : t.Sets p n t') : t'.get? p = n := by rw [h p, if_pos rfl]

theorem other (h : t.Sets p n t') (hq : q ≠ p) : t'.get? q = t.get? q := by rw [h q, if_neg hq]

theorem same (h : t.Sets p n t') (hp : t.get? p = n) (q : Place) : t'.get? q = t.get? q := by
  by_cases hq : q = p
  · rw [hq, h.self, hp]
  · exact h.other hq

theorem trans (h : t.Sets p n t') (h' : t'.Sets p m t'') : t.Sets p m t'' := by
  intro q
  by_cases hq : q = p
  · rw [hq, h'.self, if_pos rfl]
  · rw [h'.other hq, h.other hq, if_neg hq]

theorem skeleton_eq (h : t.Sets p n t') (hp : t.skeleton p = none) (hp' : t'.skeleton p = none)
    (q : Place) : t'.skeleton q = t.skeleton q := by
  by_cases hq : q = p
  · rw [hq, hp, hp']
  · simp only [skeleton, h.other hq]

theorem below (h : t.Sets p n t') (hp : t.skeleton p = none)
    (hp' : t'.skeleton p = none ∨ t'.skeleton p = some .folder) : t.Below t' := by
  rcases hp' with hp' | hp'
  · exact .of_eq (h.skeleton_eq hp hp')
  · intro q
    by_cases hq : q = p
    · subst hq
      exact .inr ⟨hp, hp'⟩
    · simp only [skeleton, h.other hq, true_or]

theorem sound (h : t.Sets p n t') (ht : t.Sound) (hp : t.get? p ≠ some .folder)
    (hparent : t.get? p.dropLast = some .folder) : t'.Sound := by
  have hdrop (q : Place) (hq : t.get? q = some .folder) : t'.get? q = some .folder := by
    rw [h.other (fun heq => hp (heq ▸ hq)), hq]
  intro q node hq hget
  by_cases hqp : q = p
  · rw [hqp]
    exact hdrop _ hparent
  · rw [h.other hqp] at hget
    exact hdrop _ (ht q node hq hget)

theorem linkless (h : t.Sets p n t') (ht : t.Linkless) (hn : ∀ target, n ≠ some (.link target)) :
    t'.Linkless := by
  intro q target
  by_cases hq : q = p
  · rw [hq, h.self]
    exact hn target
  · rw [h.other hq]
    exact ht q target

end Sets

theorem skeleton_congr (h : t'.get? p = t.get? p) : t'.skeleton p = t.skeleton p := by
  simp only [skeleton, h]

theorem Below.of_get (h : ∀ p, t'.get? p = t.get? p) : t.Below t' :=
  .of_eq fun p => skeleton_congr (h p)

theorem Sound.vacant_below (ht : t.Sound) (hp : t.get? p ≠ some .folder) (names : List String)
    (hnames : names ≠ []) : t.get? (p ++ names) = none := by
  induction names using List.reverseRecOn with
  | nil => exact absurd rfl hnames
  | append_singleton names name ih =>
    rcases hget : t.get? (p ++ (names ++ [name])) with _ | node
    · rfl
    · have hfolder := ht _ node (by simp) hget
      rw [← List.append_assoc, List.dropLast_concat] at hfolder
      by_cases hn : names = []
      · subst hn
        exact absurd (by simpa using hfolder) hp
      · rw [ih hn] at hfolder
        cases hfolder

theorem get?_start {here : Place} (hhere : t.get? here = some .folder) (p : Path) :
    t.get? (p.start here) = some .folder := by
  unfold Path.start
  split
  · exact hhere
  · exact t.get?_nil

namespace Leads

theorem ends (ht : t.Sound) (hp : t.get? p = some .folder) (h : t.Leads follow links p names q) :
    t.get? q = some .folder ∨ q ≠ [] ∧ t.get? q.dropLast = some .folder := by
  induction h with
  | stop => exact .inl hp
  | @up _ p _ _ _ ih =>
    apply ih
    by_cases hnil : p = []
    · simp [hnil]
    · exact ht p _ hnil hp
  | into _ found _ ih => exact ih (skeleton_eq_folder_iff.mp found)
  | leaf | kept => exact .inr ⟨by simp, by simpa using hp⟩
  | through _ _ _ _ ih => exact ih (get?_start hp _)

/-- Where a walk ends at a file or at nothing, the name there is the last one given or the last one
that a link points to. -/
theorem last_name (ht : t.Sound) (hp : t.get? p = some .folder)
    (h : t.Leads follow links p names (q ++ [name])) (hleaf : t.skeleton (q ++ [name]) = none) :
    names.getLast? = some name ∨ t.pointsTo name = true := by
  have hcons {first : String} {rest : List String} (hrest : rest.getLast? = some name) :
      (first :: rest).getLast? = some name := by
    rw [List.getLast?_cons, hrest, Option.getD_some]
  generalize hend : q ++ [name] = place at h
  induction h with
  | @stop _ p =>
    rw [hend, skeleton_eq_folder_iff.mpr hp] at hleaf
    cases hleaf
  | @up _ p _ _ _ ih =>
    have hup : t.get? p.dropLast = some .folder := by
      by_cases hnil : p = []
      · simp [hnil]
      · exact ht p _ hnil hp
    exact (ih hup hend).imp_left hcons
  | into _ found _ ih => exact (ih (skeleton_eq_folder_iff.mp found) hend).imp_left hcons
  | leaf =>
    obtain rfl := List.singleton_inj.mp (List.append_inj' hend rfl).2
    exact .inl rfl
  | kept _ found =>
    rw [hend, found] at hleaf
    cases hleaf
  | @through _ p _ first target rest _ found _ _ ih =>
    refine (ih (get?_start hp _) hend).elim (fun hlast => ?_) .inr
    rcases List.eq_nil_or_concat rest with rfl | ⟨front, last, rfl⟩
    · rw [List.append_nil] at hlast
      refine .inr (pointsTo_iff.mpr ⟨p ++ [first], target, skeleton_eq_link_iff.mp found, ?_⟩)
      rw [Path.name, hlast, Option.getD_some]
    · rw [List.concat_eq_append] at hlast ⊢
      refine .inl (hcons ?_)
      simpa using hlast

/-- A walk takes its last step from the folder that the names before lead to. -/
theorem unsnoc (ht : t.Sound) (hp : t.get? p = some .folder)
    (h : t.Leads false links p (names ++ [name]) q) :
    ∃ r, t.Leads true links p names r ∧ t.get? r = some .folder ∧
      (name = ".." ∧ q = r.dropLast ∨ Plain name ∧ q = r ++ [name]) := by
  generalize hall : names ++ [name] = all at h
  induction h generalizing names with
  | stop => simp at hall
  | @up _ p _ _ tail ih =>
    cases names with
    | nil =>
      simp only [List.nil_append, List.cons.injEq] at hall
      obtain ⟨rfl, rfl⟩ := hall
      exact ⟨p, .stop, hp, .inl ⟨rfl, tail.unique .stop⟩⟩
    | cons first rest =>
      simp only [List.cons_append, List.cons.injEq] at hall
      obtain ⟨rfl, hall⟩ := hall
      have hup : t.get? p.dropLast = some .folder := by
        by_cases hnil : p = []
        · simp [hnil]
        · exact ht p _ hnil hp
      obtain ⟨r, hr, hfolder, hend⟩ := ih hup hall
      exact ⟨r, .up hr, hfolder, hend⟩
  | @into _ p q last rest plain found tail ih =>
    cases names with
    | nil =>
      simp only [List.nil_append, List.cons.injEq] at hall
      obtain ⟨rfl, rfl⟩ := hall
      exact ⟨p, .stop, hp, .inr ⟨plain, tail.unique .stop⟩⟩
    | cons first rest =>
      simp only [List.cons_append, List.cons.injEq] at hall
      obtain ⟨rfl, hall⟩ := hall
      obtain ⟨r, hr, hfolder, hend⟩ := ih (skeleton_eq_folder_iff.mp found) hall
      exact ⟨r, .into plain found hr, hfolder, hend⟩
  | @leaf _ p last plain _ =>
    cases names with
    | nil =>
      simp only [List.nil_append, List.cons.injEq, and_true] at hall
      subst hall
      exact ⟨p, .stop, hp, .inr ⟨plain, rfl⟩⟩
    | cons first rest => simp at hall
  | @kept _ p last _ plain _ _ =>
    cases names with
    | nil =>
      simp only [List.nil_append, List.cons.injEq, and_true] at hall
      subst hall
      exact ⟨p, .stop, hp, .inr ⟨plain, rfl⟩⟩
    | cons first rest => simp at hall
  | @through _ p q last target rest plain found goesOn tail ih =>
    cases names with
    | nil =>
      simp only [List.nil_append, List.cons.injEq] at hall
      exact absurd (goesOn hall.2.symm) (by simp)
    | cons first rest' =>
      simp only [List.cons_append, List.cons.injEq] at hall
      obtain ⟨rfl, rfl⟩ := hall
      obtain ⟨r, hr, hfolder, hend⟩ := ih (get?_start hp _)
        (List.append_assoc (Path.ofText target).parts rest' [name])
      exact ⟨r, .through plain found (fun _ => rfl) hr, hfolder, hend⟩

/-- Past a folder a walk goes on from there, with the links that are left. -/
theorem front (h : t.Leads true links p names q) (hq : t.get? q = some .folder) :
    ∃ left, ∀ follow rest, rest ≠ [] →
      t.walkFrom follow links p (names ++ rest) = t.walkFrom follow left q rest := by
  induction h with
  | @stop links p => exact ⟨links, fun _ _ _ => rfl⟩
  | up _ ih =>
    obtain ⟨left, hleft⟩ := ih hq
    refine ⟨left, fun follow rest hrest => ?_⟩
    rw [List.cons_append, walkFrom_up, hleft follow rest hrest]
  | into plain found _ ih =>
    obtain ⟨left, hleft⟩ := ih hq
    refine ⟨left, fun follow rest hrest => ?_⟩
    rw [List.cons_append, walkFrom_into plain (skeleton_eq_folder_iff.mp found),
      hleft follow rest hrest]
  | leaf _ found =>
    rw [skeleton_eq_folder_iff.mpr hq] at found
    cases found
  | kept _ _ hfollow => cases hfollow
  | through plain found _ _ ih =>
    obtain ⟨left, hleft⟩ := ih hq
    refine ⟨left, fun follow rest hrest => ?_⟩
    rw [List.cons_append, walkFrom_through plain (skeleton_eq_link_iff.mp found) (by simp [hrest]),
      ← List.append_assoc, hleft follow rest hrest]

theorem single (plain : Plain name) : t.Leads false links p [name] (p ++ [name]) := by
  rcases h : t.skeleton (p ++ [name]) with _ | _ | _ | target
  · exact .leaf plain h
  · exact absurd h skeleton_ne_file
  · exact .into plain h .stop
  · exact .kept plain h rfl

theorem snoc (h : t.Leads true links p names q) (hq : t.get? q = some .folder)
    (plain : Plain name) : t.Leads false links p (names ++ [name]) (q ++ [name]) := by
  obtain ⟨left, hleft⟩ := h.front hq
  rw [← walkFrom_eq_ok_iff, hleft false [name] (by simp)]
  exact (single plain).walkFrom_eq

theorem collapse (ht : t.Linkless) (h : t.Leads follow links p names q) :
    q = Path.collapse p names := by
  induction h with
  | stop => rfl
  | up _ ih => rw [ih, Path.collapse, if_pos rfl]
  | into plain _ _ ih => rw [ih, Path.collapse, if_neg plain.1]
  | leaf plain _ => rw [Path.collapse, if_neg plain.1, Path.collapse]
  | kept _ found | through _ found => exact absurd (skeleton_eq_link_iff.mp found) (ht _ _)

/-- Without `..` and links every tree that has a file at the end has the way to it. -/
theorem of_entry (ht : t.Sound) (ht' : t'.Linkless) (h : t'.Leads follow links p names q)
    (hup : ".." ∉ names) (hnames : names ≠ []) (hthere : t.get? q ≠ none)
    (hleaf : t.skeleton q = none) : t.Leads follow links p names q := by
  induction h with
  | stop => exact absurd rfl hnames
  | up => exact absurd List.mem_cons_self hup
  | @into _ p q name names plain found tail ih =>
    rw [List.mem_cons, not_or] at hup
    cases names with
    | nil =>
      cases tail
      exact .leaf plain hleaf
    | cons next rest =>
      refine .into plain ?_ (ih hup.2 (by simp) hthere hleaf)
      have hq := tail.collapse ht'
      rw [Path.collapse_of_no_up hup.2] at hq
      by_contra hfolder
      rw [Tree.skeleton_eq_folder_iff] at hfolder
      exact hthere (hq ▸ ht.vacant_below hfolder (next :: rest) (by simp))
  | leaf plain => exact .leaf plain hleaf
  | kept _ found | through _ found => exact absurd (skeleton_eq_link_iff.mp found) (ht' _ _)

end Leads
end Tree
end ConfigSteward
