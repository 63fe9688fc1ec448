import ConfigSteward.Proofs.Files.Sound

/-!
# Making missing folders

`Dug` is what happens to a tree when a folder and those above it are made: one folder after the other
at vacant places that the beginnings of its path lead to. A folder that stands needs none, and below
a path without `..` nothing comes up but the folders on the way (`Dug.shaft`).
-/
namespace ConfigSteward.Tree

variable {t u v : Tree} {follow : Bool} {links : Nat} {p q r : Place} {name : String}
  {names rest : List String}

namespace Leads

/-- A walk that ends at a folder goes through folders only. -/
theorem begins (ht : t.Sound) (hp : t.get? p = some .folder) (hq : t.get? q = some .folder)
    (h : t.Leads true links p (names ++ rest) q) :
    ∃ r, t.Leads true links p names r ∧ t.get? r = some .folder := by
  generalize hall : names ++ rest = all at h
  induction h generalizing names with
  | @stop _ p =>
    have hnames : names = [] := (List.append_eq_nil_iff.mp hall).1
    exact ⟨p, hnames ▸ .stop, hp⟩
  | @up _ p _ _ _ ih =>
    cases names with
    | nil => exact ⟨p, .stop, hp⟩
    | cons first names =>
      rw [List.cons_append, List.cons.injEq] at hall
      obtain ⟨rfl, hall⟩ := hall
      have hup : t.get? p.dropLast = some .folder := by
        by_cases hnil : p = []
        · simp [hnil]
        · exact ht p _ hnil hp
      obtain ⟨r, hr, hfolder⟩ := ih hup hq hall
      exact ⟨r, .up hr, hfolder⟩
  | @into _ p _ _ _ plain found _ ih =>
    cases names with
    | nil => exact ⟨p, .stop, hp⟩
    | cons first names =>
      rw [List.cons_append, List.cons.injEq] at hall
      obtain ⟨rfl, hall⟩ := hall
      obtain ⟨r, hr, hfolder⟩ := ih (skeleton_eq_folder_iff.mp found) hq hall
      exact ⟨r, .into plain found hr, hfolder⟩
  | leaf _ found =>
    rw [skeleton_eq_folder_iff.mpr hq] at found
    cases found
  | kept _ _ hfollow => cases hfollow
  | @through _ p _ _ target _ plain found _ _ ih =>
    cases names with
    | nil => exact ⟨p, .stop, hp⟩
    | cons first names =>
      rw [List.cons_append, List.cons.injEq] at hall
      obtain ⟨rfl, rfl⟩ := hall
      obtain ⟨r, hr, hfolder⟩ := ih (get?_start hp _) hq
        (List.append_assoc (Path.ofText target).parts names rest)
      exact ⟨r, .through plain found (fun _ => rfl) hr, hfolder⟩

/-- Among folders without links a walk goes where its names say. -/
theorem within (hfolders : ∀ more node, t.get? (p ++ more) = some node → node = .folder)
    (hup : ".." ∉ names) (h : t.Leads follow links p names q) : q = p ++ names := by
  induction h with
  | stop => simp
  | up => simp at hup
  | @into _ p q name names _ _ _ ih =>
    rw [List.mem_cons, not_or] at hup
    have hq := ih (fun more node hnode => hfolders (name :: more) node (by simpa using hnode)) hup.2
    rw [hq, List.append_assoc, List.singleton_append]
  | leaf => rfl
  | kept _ found => cases hfolders _ _ (skeleton_eq_link_iff.mp found)
  | through _ found => cases hfolders _ _ (skeleton_eq_link_iff.mp found)

end Leads

/-- The tree after folders were made at vacant places that beginnings of the names lead to. -/
inductive Dug (p : Place) (names : List String) (t : Tree) : Tree → Prop where
  | still : Dug p names t t
  | more {u : Tree} {front : List String} {q : Place} (h : Dug p names t u)
      (hfront : front <+: names) (leads : u.Leads false linkBudget p front q)
      (vacant : u.get? q = none) : Dug p names t (u.put q .folder)

namespace Dug

theorem one (leads : t.Leads false linkBudget p names q) (vacant : t.get? q = none) :
    Dug p names t (t.put q .folder) := .more .still List.prefix_rfl leads vacant

theorem trans (h : Dug p names t u) (h' : Dug p names u v) : Dug p names t v := by
  induction h' with
  | still => exact h
  | more _ hfront leads vacant ih => exact .more ih hfront leads vacant

theorem longer (h : Dug p names t u) (hnames : names <+: rest) : Dug p rest t u := by
  induction h with
  | still => exact .still
  | more _ hfront leads vacant ih => exact .more ih (hfront.trans hnames) leads vacant

/-- What was there stays as it was, and what is new is a folder. -/
theorem entry (h : Dug p names t u) (q : Place) :
    u.get? q = t.get? q ∨ t.get? q = none ∧ u.get? q = some .folder := by
  induction h with
  | still => exact .inl rfl
  | @more u _ r _ _ leads vacant ih =>
    have hr : r ≠ [] := by
      rintro rfl
      simp at vacant
    by_cases hq : q = r
    · subst hq
      rw [(put_sets hr .folder).self]
      rcases ih with heq | ⟨_, hfolder⟩
      · exact .inr ⟨heq ▸ vacant, rfl⟩
      · rw [vacant] at hfolder
        cases hfolder
    · rw [(put_sets hr .folder).other hq]
      exact ih

theorem kept (h : Dug p names t u) (hq : t.get? q ≠ none) : u.get? q = t.get? q := by
  rcases h.entry q with heq | ⟨hnone, _⟩
  · exact heq
  · exact absurd hnone hq

theorem grows (h : Dug p names t u) : t.Below u := by
  intro q
  rcases h.entry q with heq | ⟨hnone, hfolder⟩
  · exact .inl (skeleton_congr heq)
  · exact .inr ⟨skeleton_of_vacant hnone, skeleton_eq_folder_iff.mpr hfolder⟩

theorem sound (h : Dug p names t u) (ht : t.Sound) (hp : t.get? p = some .folder) : u.Sound := by
  induction h with
  | still => exact ht
  | @more u _ r h _ leads vacant ih =>
    have hends := leads.ends ih (h.grows.folder hp)
    rw [vacant] at hends
    rcases hends with hends | ⟨hr, hfolder⟩
    · cases hends
    · exact (put_sets hr _).sound ih (by simp [vacant]) hfolder

theorem linkless (h : Dug p names t u) (ht : t.Linkless) : u.Linkless := by
  intro q target hlink
  rcases h.entry q with heq | ⟨_, hfolder⟩
  · exact ht q target (heq ▸ hlink)
  · rw [hlink] at hfolder
    cases hfolder

/-- A new folder is one that a beginning of the path leads to. -/
theorem named (h : Dug p names t u) (hq : t.get? q = none) (hq' : u.get? q ≠ none) :
    ∃ front, front <+: names ∧ u.Leads true linkBudget p front q := by
  induction h with
  | still => exact absurd hq hq'
  | @more u front r h hfront leads vacant ih =>
    have hleaf := skeleton_of_vacant vacant
    have hset := put_sets (t := u) (ne_nil_of_leaf hleaf) .folder
    have hbelow := hset.below hleaf (.inr (skeleton_eq_folder_iff.mpr hset.self))
    by_cases hr : q = r
    · subst hr
      exact ⟨front, hfront, (leads.follow_of_leaf hleaf).mono hbelow⟩
    · rw [hset.other hr] at hq'
      obtain ⟨front', hfront', hleads⟩ := ih hq'
      exact ⟨front', hfront', hleads.mono hbelow⟩

/-- Nothing is made on the way to a folder that stands. -/
theorem eq_of_stands (h : Dug p names t u) (ht : t.Sound) (hp : t.get? p = some .folder)
    (hleads : t.Leads true linkBudget p names r) (hr : t.get? r = some .folder) : u = t := by
  induction h with
  | still => rfl
  | @more u front q h hfront leads vacant ih =>
    subst ih
    obtain ⟨rest, rfl⟩ := hfront
    obtain ⟨r', hr', hfolder⟩ := hleads.begins ht hp hr
    have hq : q = r' := (leads.follow_of_leaf (skeleton_of_vacant vacant)).unique hr'
    rw [← hq, vacant] at hfolder
    cases hfolder

/-- Either nothing was made, or there is a first new folder and below it no more than the folders on
the way. -/
theorem shaft (h : Dug p names t u) (ht : t.Sound) (hp : t.get? p = some .folder)
    (hup : ".." ∉ names) :
    u = t ∨ ∃ front rest q, names = front ++ rest ∧ u.Leads true linkBudget p front q ∧
      u.get? q = some .folder ∧ ∀ more node, u.get? (q ++ more) = some node →
        node = .folder ∧ more.length ≤ rest.length := by
  induction h with
  | still => exact .inl rfl
  | @more u front' q' h hfront' leads vacant ih =>
    right
    have hleaf := skeleton_of_vacant vacant
    have hset := put_sets (t := u) (ne_nil_of_leaf hleaf) .folder
    have hbelow := hset.below hleaf (.inr (skeleton_eq_folder_iff.mpr hset.self))
    have hu := h.sound ht hp
    have hleads := leads.follow_of_leaf hleaf
    obtain ⟨rest', hrest'⟩ := hfront'
    rcases ih with rfl | ⟨front, rest, q, hnames, hq, hfolder, hall⟩
    · refine ⟨front', rest', q', hrest'.symm, hleads.mono hbelow, hset.self, ?_⟩
      intro more node hnode
      by_cases hmore : more = []
      · subst hmore
        rw [List.append_nil, hset.self] at hnode
        exact ⟨(Option.some.inj hnode).symm, Nat.zero_le _⟩
      · rw [hset.other (by simpa using hmore),
          hu.vacant_below (by simp [vacant]) more hmore] at hnode
        cases hnode
    · have hfronts : front' <+: front ∨ front <+: front' :=
        List.prefix_or_prefix_of_prefix ⟨rest', hrest'⟩ ⟨rest, hnames.symm⟩
      rcases hfronts with ⟨mid, rfl⟩ | ⟨mid, rfl⟩
      · obtain ⟨r, hr, hfolder'⟩ := hq.begins hu (h.grows.folder hp) hfolder
        rw [← hleads.unique hr, vacant] at hfolder'
        cases hfolder'
      · have hmid : rest = mid ++ rest' := by
          rw [hnames, List.append_assoc] at hrest'
          exact (List.append_cancel_left hrest').symm
        have hmid_up : ".." ∉ mid := by
          intro hin
          exact hup (hnames ▸ hmid ▸ by simp [hin])
        have hne : mid ≠ [] := by
          rintro rfl
          rw [List.append_nil] at hleads
          rw [← hq.unique hleads, hfolder] at vacant
          cases vacant
        obtain ⟨left, hleft⟩ := hq.front hfolder
        have hq' : q' = q ++ mid :=
          (leads_of_walkFrom ((hleft false mid hne) ▸ leads.walkFrom_eq)).within
            (fun more node hnode => (hall more node hnode).1) hmid_up
        refine ⟨front, rest, q, hnames, hq.mono hbelow, hbelow.folder hfolder, ?_⟩
        intro more node hnode
        by_cases hmore : q ++ more = q'
        · rw [hmore, hset.self] at hnode
          refine ⟨(Option.some.inj hnode).symm, ?_⟩
          rw [List.append_cancel_left (hmore.trans hq'), hmid, List.length_append]
          omega
        · rw [hset.other hmore] at hnode
          exact hall more node hnode

/-- Where folders were made on the way, a path without `..` goes on to nothing. -/
theorem fresh (h : Dug p names t u) (ht : t.Sound) (hp : t.get? p = some .folder)
    (hup : ".." ∉ names ++ [name]) (hq : u.Leads false linkBudget p (names ++ [name]) q) :
    u = t ∨ u.get? q = none := by
  have hnames : ".." ∉ names := fun hin => hup (List.mem_append_left _ hin)
  rcases h.shaft ht hp hnames with rfl | ⟨front, rest, r, rfl, hr, hfolder, hall⟩
  · exact .inl rfl
  · right
    obtain ⟨left, hleft⟩ := hr.front hfolder
    have hend : u.Leads false left r (rest ++ [name]) q := by
      apply leads_of_walkFrom
      rw [← hleft false (rest ++ [name]) (by simp), ← List.append_assoc]
      exact hq.walkFrom_eq
    have hplace : q = r ++ (rest ++ [name]) := by
      refine hend.within (fun more node hnode => (hall more node hnode).1) ?_
      rw [List.append_assoc] at hup
      exact fun hin => hup (List.mem_append_right _ hin)
    rcases hget : u.get? q with _ | node
    · rfl
    · have hlen := (hall (rest ++ [name]) node (hplace ▸ hget)).2
      rw [List.length_append, List.length_singleton] at hlen
      omega

end Dug
end ConfigSteward.Tree
