import ConfigSteward.Files.Walk

/-!
# Where walks end

A walk asks a tree only where its folders and links are. `Tree.skeleton` keeps just that, and `Leads`
is the walk as a relation, with a constructor for each way on. Files that come, go or change never
move the end of a walk, and new folders only let more walks end (`Leads.mono`).
-/
namespace ConfigSteward

namespace Tree

variable {t t' : Tree} {follow : Bool} {links : Nat} {p q : Place} {name : String}
  {names : List String}

/-- The folder or link at a place; a file counts as nothing, since no walk goes through it. -/
def skeleton (t : Tree) (p : Place) : Option Node :=
  match t.get? p with
  | some .folder => some .folder
  | some (.link target) => some (.link target)
  | _ => none

@[simp] theorem skeleton_nil (t : Tree) : t.skeleton [] = some .folder := by simp [skeleton]

@[simp] theorem skeleton_eq_folder_iff :
    t.skeleton p = some .folder ↔ t.get? p = some .folder := by
  rcases h : t.get? p with _ | _ | _ | target <;> simp [skeleton, h]

@[simp] theorem skeleton_eq_link_iff {target : String} :
    t.skeleton p = some (.link target) ↔ t.get? p = some (.link target) := by
  rcases h : t.get? p with _ | _ | _ | target <;> simp [skeleton, h]

theorem skeleton_eq_none_iff :
    t.skeleton p = none ↔ t.get? p = none ∨ ∃ bytes mode changed,
      t.get? p = some (.file bytes mode changed) := by
  rcases h : t.get? p with _ | _ | _ | target <;> simp [skeleton, h]

theorem skeleton_of_vacant (h : t.get? p = none) : t.skeleton p = none :=
  skeleton_eq_none_iff.mpr (.inl h)

theorem skeleton_of_file {bytes : Bytes} {mode : Nat} {changed : Changed}
    (h : t.get? p = some (.file bytes mode changed)) : t.skeleton p = none :=
  skeleton_eq_none_iff.mpr (.inr ⟨_, _, _, h⟩)

theorem skeleton_ne_file {bytes : Bytes} {mode : Nat} {changed : Changed} :
    t.skeleton p ≠ some (.file bytes mode changed) := by
  rcases h : t.get? p with _ | _ | _ | target <;> simp [skeleton, h]

theorem ne_nil_of_leaf (h : t.skeleton p = none) : p ≠ [] := by
  rintro rfl
  simp at h

/-- `t'` has every folder and link of `t`, no other links, and perhaps more folders. -/
def Below (t t' : Tree) : Prop :=
  ∀ p, t'.skeleton p = t.skeleton p ∨ t.skeleton p = none ∧ t'.skeleton p = some .folder

theorem Below.of_eq (h : ∀ p, t'.skeleton p = t.skeleton p) : t.Below t' := fun p => .inl (h p)

theorem Below.trans {t'' : Tree} (h : t.Below t') (h' : t'.Below t'') : t.Below t'' := by
  intro p
  rcases h p with heq | ⟨hnone, hfolder⟩ <;> rcases h' p with heq' | ⟨hnone', hfolder'⟩
  · exact .inl (heq'.trans heq)
  · exact .inr ⟨heq ▸ hnone', hfolder'⟩
  · exact .inr ⟨hnone, heq'.trans hfolder⟩
  · rw [hfolder] at hnone'
    cases hnone'

theorem Below.folder (h : t.Below t') (hp : t.get? p = some .folder) :
    t'.get? p = some .folder := by
  rw [← skeleton_eq_folder_iff] at hp ⊢
  rcases h p with heq | ⟨hnone, _⟩
  · rw [heq, hp]
  · rw [hp] at hnone
    cases hnone

/-- A name that one step of a walk looks up. -/
def Plain (name : String) : Prop := name ≠ ".." ∧ name.utf8ByteSize ≤ longestName

/-- The walk along names ends at a place, following at most the given number of links. -/
inductive Leads (t : Tree) (follow : Bool) : Nat → Place → List String → Place → Prop where
  | stop {n : Nat} {p : Place} : Leads t follow n p [] p
  | up {n : Nat} {p q : Place} {names : List String}
      (tail : Leads t follow n p.dropLast names q) : Leads t follow n p (".." :: names) q
  | into {n : Nat} {p q : Place} {name : String} {names : List String} (plain : Plain name)
      (found : t.skeleton (p ++ [name]) = some .folder)
      (tail : Leads t follow n (p ++ [name]) names q) : Leads t follow n p (name :: names) q
  | leaf {n : Nat} {p : Place} {name : String} (plain : Plain name)
      (found : t.skeleton (p ++ [name]) = none) : Leads t follow n p [name] (p ++ [name])
  | kept {n : Nat} {p : Place} {name target : String} (plain : Plain name)
      (found : t.skeleton (p ++ [name]) = some (.link target)) (hfollow : follow = false) :
      Leads t follow n p [name] (p ++ [name])
  | through {n : Nat} {p q : Place} {name target : String} {names : List String}
      (plain : Plain name) (found : t.skeleton (p ++ [name]) = some (.link target))
      (goesOn : names = [] → follow = true)
      (tail : Leads t follow n ((Path.ofText target).start p)
        ((Path.ofText target).parts ++ names) q) : Leads t follow (n + 1) p (name :: names) q

theorem walkFrom_up : t.walkFrom follow links p (".." :: names)
    = t.walkFrom follow links p.dropLast names := by
  rw [walkFrom, if_pos rfl]

theorem walkFrom_into (plain : Plain name) (h : t.get? (p ++ [name]) = some .folder) :
    t.walkFrom follow links p (name :: names) = t.walkFrom follow links (p ++ [name]) names := by
  rw [walkFrom, if_neg plain.1, if_neg (Nat.not_lt.mpr plain.2), h]

theorem walkFrom_leaf (plain : Plain name) (h : t.skeleton (p ++ [name]) = none) :
    t.walkFrom follow links p [name] = .ok (p ++ [name]) := by
  rw [walkFrom, if_neg plain.1, if_neg (Nat.not_lt.mpr plain.2)]
  rcases skeleton_eq_none_iff.mp h with h | ⟨_, _, _, h⟩ <;> simp [h]

theorem walkFrom_through {target : String} (plain : Plain name)
    (h : t.get? (p ++ [name]) = some (.link target)) (goesOn : names = [] → follow = true) :
    t.walkFrom follow (links + 1) p (name :: names)
      = t.walkFrom follow links ((Path.ofText target).start p)
          ((Path.ofText target).parts ++ names) := by
  rw [walkFrom, if_neg plain.1, if_neg (Nat.not_lt.mpr plain.2), h]
  by_cases hn : names = []
  · simp [goesOn hn]
  · simp [hn]

theorem Leads.walkFrom_eq (h : t.Leads follow links p names q) :
    t.walkFrom follow links p names = .ok q := by
  induction h with
  | stop => exact walkFrom_nil _ _ _ _
  | up _ ih => rw [walkFrom_up, ih]
  | into plain found _ ih => rw [walkFrom_into plain (skeleton_eq_folder_iff.mp found), ih]
  | leaf plain found => exact walkFrom_leaf plain found
  | kept plain found hfollow =>
    rw [walkFrom, if_neg plain.1, if_neg (Nat.not_lt.mpr plain.2), skeleton_eq_link_iff.mp found]
    simp [hfollow]
  | through plain found goesOn _ ih =>
    rw [walkFrom_through plain (skeleton_eq_link_iff.mp found) goesOn, ih]

theorem leads_of_walkFrom (h : t.walkFrom follow links p names = .ok q) :
    t.Leads follow links p names q := by
  fun_induction Tree.walkFrom t follow links p names with
  | case1 => cases h; exact .stop
  | case2 _ _ _ ih => exact .up (ih h)
  | case3 => cases h
  | case4 _ _ _ hup hlen hget =>
    cases h
    exact .leaf ⟨hup, Nat.not_lt.mp hlen⟩ (skeleton_of_vacant hget)
  | case5 => cases h
  | case6 _ _ _ _ hup hlen hget ih =>
    exact .into ⟨hup, Nat.not_lt.mp hlen⟩ (skeleton_eq_folder_iff.mpr hget) (ih h)
  | case7 _ _ _ hup hlen _ _ _ hget =>
    cases h
    exact .leaf ⟨hup, Nat.not_lt.mp hlen⟩ (skeleton_of_file hget)
  | case8 => cases h
  | case9 _ _ _ _ hup hlen _ hget hend =>
    cases h
    obtain ⟨rfl, hfollow⟩ := hend
    exact .kept ⟨hup, Nat.not_lt.mp hlen⟩ (skeleton_eq_link_iff.mpr hget) hfollow
  | case10 => cases h
  | case11 _ _ _ hup hlen _ hget hend _ _ ih =>
    refine .through ⟨hup, Nat.not_lt.mp hlen⟩ (skeleton_eq_link_iff.mpr hget) ?_ (ih h)
    intro hn
    simpa [hn] using hend

theorem walkFrom_eq_ok_iff :
    t.walkFrom follow links p names = .ok q ↔ t.Leads follow links p names q :=
  ⟨leads_of_walkFrom, Leads.walkFrom_eq⟩

namespace Leads

theorem unique {q' : Place} (h : t.Leads follow links p names q)
    (h' : t.Leads follow links p names q') : q = q' :=
  Except.ok.inj (h.walkFrom_eq.symm.trans h'.walkFrom_eq)

/-- A walk still ends where it did after files came or went and folders were made. -/
theorem mono (hbelow : t.Below t') (h : t.Leads follow links p names q) :
    t'.Leads follow links p names q := by
  have kept_at {p : Place} {n : Node} (hp : t.skeleton p = some n) : t'.skeleton p = some n := by
    rcases hbelow p with heq | ⟨hnone, _⟩
    · rw [heq, hp]
    · rw [hp] at hnone
      cases hnone
  induction h with
  | stop => exact .stop
  | up _ ih => exact .up ih
  | into plain found _ ih => exact .into plain (kept_at found) ih
  | @leaf _ p name plain found =>
    rcases hbelow (p ++ [name]) with heq | ⟨_, hfolder⟩
    · exact .leaf plain (heq.trans found)
    · exact .into plain hfolder .stop
  | kept plain found hfollow => exact .kept plain (kept_at found) hfollow
  | through plain found goesOn _ ih => exact .through plain (kept_at found) goesOn ih

/-- A walk that ends at a file or at nothing ends there whether or not a last link is followed. -/
theorem follow_of_leaf (hleaf : t.skeleton q = none) (h : t.Leads false links p names q) :
    t.Leads true links p names q := by
  induction h with
  | stop => exact .stop
  | up _ ih => exact .up (ih hleaf)
  | into plain found _ ih => exact .into plain found (ih hleaf)
  | leaf plain found => exact .leaf plain found
  | kept plain found _ =>
    rw [found] at hleaf
    cases hleaf
  | through plain found _ _ ih => exact .through plain found (fun _ => rfl) (ih hleaf)

/-- Where a walk that follows a last link ends, the one that does not ends as well: there or at
the link. -/
theorem stop_at_link (h : t.Leads true links p names q) :
    ∃ q', t.Leads false links p names q' ∧ (q' = q ∨ ∃ target, t.get? q' = some (.link target)) := by
  induction h with
  | @stop _ p => exact ⟨p, .stop, .inl rfl⟩
  | up _ ih =>
    obtain ⟨q', hq, hend⟩ := ih
    exact ⟨q', .up hq, hend⟩
  | into plain found _ ih =>
    obtain ⟨q', hq, hend⟩ := ih
    exact ⟨q', .into plain found hq, hend⟩
  | leaf plain found => exact ⟨_, .leaf plain found, .inl rfl⟩
  | kept _ _ hfollow => cases hfollow
  | @through _ p q name target names plain found _ _ ih =>
    by_cases hn : names = []
    · subst hn
      exact ⟨p ++ [name], .kept plain found rfl, .inr ⟨target, skeleton_eq_link_iff.mp found⟩⟩
    · obtain ⟨q', hq, hend⟩ := ih
      exact ⟨q', .through plain found (fun hn' => absurd hn' hn) hq, hend⟩

end Leads
end Tree
end ConfigSteward
