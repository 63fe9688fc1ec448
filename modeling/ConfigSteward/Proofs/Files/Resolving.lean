import ConfigSteward.Proofs.Files.Sound
import Mathlib.Data.Nat.Find

/-!
# What a path stands for

A path on which there is no link and no `..` stands for the place that it spells. So it is with the
entries of a folder of a sound tree, since folders alone lie above a folder. With links on the way, a
path stands for a place as soon as the links inside of links come to an end (`Resolves`): so it is
with every path that can be walked, and with every path where no link leads back to itself.
-/
namespace ConfigSteward

namespace Tree

variable {t : Tree} {p q place : Place} {names rest : List String} {name : String} {n m : Nat}

private theorem resolveFrom_of_no_link (hup : ".." ∉ names)
    (hlink : ∀ front, front ≠ [] → front <+: names → ∀ target,
      t.get? (place ++ front) ≠ some (.link target)) (fuel : Nat) (active : List Place) :
    t.resolveFrom fuel active place names = (place ++ names, true) := by
  induction names generalizing place with
  | nil => rw [resolveFrom, List.append_nil]
  | cons name names ih =>
    rw [List.mem_cons, not_or] at hup
    have hnext : t.resolveFrom fuel active (place ++ [name]) names
        = (place ++ name :: names, true) := by
      rw [ih hup.2 fun front hne hfront target => ?_]
      · simp
      · have hlonger := hlink (name :: front) (by simp) (by simpa using hfront) target
        simpa using hlonger
    rw [resolveFrom, if_neg (Ne.symm hup.1)]
    have hhere := hlink [name] (by simp) (by simp)
    dsimp only
    split
    · next target hget => exact absurd hget (hhere target)
    · exact hnext

/-- Above a folder there are folders alone. -/
theorem Sound.folder_above (ht : t.Sound) (h : t.get? p = some .folder) (hq : q <+: p) :
    t.get? q = some .folder := by
  induction p using List.reverseRecOn with
  | nil => rw [List.prefix_nil.mp hq, get?_nil]
  | append_singleton p name ih =>
    rcases List.prefix_concat_iff.mp hq with rfl | hq
    · exact h
    · refine ih ?_ hq
      simpa using ht (p ++ [name]) _ (by simp) h

/-- An entry of a folder that is no link stands for itself. -/
theorem Sound.resolve_entry (ht : t.Sound) (h : t.get? p = some .folder)
    (hup : ".." ∉ p ++ [name]) (hname : ∀ target, t.get? (p ++ [name]) ≠ some (.link target))
    (here : Place) : t.resolve here (p ++ [name]).path = .ok (p ++ [name]) := by
  rw [resolve, Place.path, Path.start, resolveFrom_of_no_link hup fun front _ hfront target => ?_]
  · rfl
  · rcases List.prefix_concat_iff.mp hfront with rfl | hfront
    · exact hname target
    · rw [List.nil_append, ht.folder_above h hfront]
      simp

/-! ### Links on the way -/

/-- Names stand for a place, with links inside of links no deeper than `n`. What is not there is taken
as written. -/
inductive Resolves (t : Tree) : Nat → Place → List String → Place → Prop where
  | stop {n : Nat} {p : Place} : Resolves t n p [] p
  | up {n : Nat} {p q : Place} {names : List String}
      (tail : Resolves t n p.dropLast names q) : Resolves t n p (".." :: names) q
  | plain {n : Nat} {p q : Place} {name : String} {names : List String} (hname : name ≠ "..")
      (hlink : ∀ target, t.get? (p ++ [name]) ≠ some (.link target))
      (tail : Resolves t n (p ++ [name]) names q) : Resolves t n p (name :: names) q
  | link {n : Nat} {p q r : Place} {name target : String} {names : List String} (hname : name ≠ "..")
      (hlink : t.get? (p ++ [name]) = some (.link target))
      (goal : Resolves t n ((Path.ofText target).start p) (Path.ofText target).parts r)
      (tail : Resolves t (n + 1) r names q) : Resolves t (n + 1) p (name :: names) q

namespace Resolves

theorem weaken (h : t.Resolves n p names q) (hnm : n ≤ m) : t.Resolves m p names q := by
  induction h generalizing m with
  | stop => exact .stop
  | up _ ih => exact .up (ih hnm)
  | plain hname hlink _ ih => exact .plain hname hlink (ih hnm)
  | link hname hlink _ _ ihgoal ih =>
    obtain ⟨m, rfl⟩ := Nat.exists_eq_add_of_le' (Nat.le_trans (Nat.le_add_left 1 _) hnm)
    exact .link hname hlink (ihgoal (Nat.le_of_succ_le_succ hnm)) (ih hnm)

theorem unique (h : t.Resolves n p names q) (h' : t.Resolves m p names place) : q = place := by
  induction h generalizing m place with
  | stop =>
    cases h'
    rfl
  | up _ ih =>
    cases h' with
    | up tail => exact ih tail
    | plain hname | link hname => exact absurd rfl hname
  | plain hname hlink _ ih =>
    cases h' with
    | up => exact absurd rfl hname
    | plain _ _ tail => exact ih tail
    | link _ hlink' => exact absurd hlink' (hlink _)
  | link hname hlink _ _ ihgoal ih =>
    cases h' with
    | up => exact absurd rfl hname
    | plain _ hlink' => exact absurd hlink (hlink' _)
    | link _ hlink' goal tail =>
      rw [hlink, Option.some_inj, Node.link.injEq] at hlink'
      subst hlink'
      obtain rfl := ihgoal goal
      exact ih tail

/-- What names stand for, with links inside of links no deeper than they must be. -/
theorem shallowest (h : t.Resolves n p names q) :
    ∃ k, k ≤ n ∧ t.Resolves k p names q ∧ ∀ j, j < k → ∀ r, ¬ t.Resolves j p names r := by
  classical
  have hends : ∃ k r, t.Resolves k p names r := ⟨n, q, h⟩
  obtain ⟨r, hr⟩ := Nat.find_spec hends
  obtain rfl := hr.unique h
  exact ⟨Nat.find hends, Nat.find_le ⟨r, h⟩, hr, fun j hj r' hr' => Nat.find_min hends hj ⟨r', hr'⟩⟩

end Resolves

/-- No link is at the place or above it. -/
def Clear (t : Tree) (p : Place) : Prop := ∀ q, q <+: p → ∀ target, t.get? q ≠ some (.link target)

private theorem clear_nil (t : Tree) : t.Clear [] := by
  intro q hq target
  rw [List.prefix_nil.mp hq, get?_nil]
  simp

theorem Sound.clear_of_folder (ht : t.Sound) (h : t.get? p = some .folder) : t.Clear p := by
  intro q hq target
  rw [ht.folder_above h hq]
  simp

namespace Clear

theorem dropLast (h : t.Clear p) : t.Clear p.dropLast :=
  fun q hq => h q (hq.trans (List.dropLast_prefix p))

theorem snoc (h : t.Clear p) (hlink : ∀ target, t.get? (p ++ [name]) ≠ some (.link target)) :
    t.Clear (p ++ [name]) := by
  intro q hq
  rcases List.prefix_concat_iff.mp hq with rfl | hq
  · exact hlink
  · exact h q hq

theorem start {here : Place} (h : t.Clear here) (path : Path) : t.Clear (path.start here) := by
  unfold Path.start
  split
  · exact h
  · exact t.clear_nil

end Clear

/-- What names stand for is no link and lies below none. -/
theorem Resolves.clear (h : t.Resolves n p names q) (hp : t.Clear p) : t.Clear q := by
  induction h with
  | stop => exact hp
  | up _ ih => exact ih hp.dropLast
  | plain _ hlink _ ih => exact ih (hp.snoc hlink)
  | link _ _ _ _ ihgoal ih => exact ih (ihgoal (hp.start _))

/-- What a link points to stands for nothing with links inside of links less deep than `n`. -/
def Deep (t : Tree) (n : Nat) (link : Place) : Prop :=
  ∀ front name target, link = front ++ [name] → t.get? link = some (.link target) →
    ∀ k, k < n → ∀ r, ¬ t.Resolves k ((Path.ofText target).start front)
      (Path.ofText target).parts r

theorem Deep.mono {link : Place} (h : t.Deep m link) (hnm : n ≤ m) : t.Deep n link :=
  fun front name target hlink hget k hk => h front name target hlink hget k (Nat.lt_of_lt_of_le hk hnm)

private theorem resolveFrom_step {fuel : Nat} {active : List Place} (hname : name ≠ "..")
    (hlink : ∀ target, t.get? (p ++ [name]) ≠ some (.link target)) :
    t.resolveFrom fuel active p (name :: names)
      = t.resolveFrom fuel active (p ++ [name]) names := by
  rw [resolveFrom, if_neg hname]
  dsimp only
  split
  · next target hget => exact absurd hget (hlink target)
  · rfl

private theorem resolveFrom_link {fuel : Nat} {active : List Place} {target : String} (hname : name ≠ "..")
    (hlink : t.get? (p ++ [name]) = some (.link target)) (hactive : p ++ [name] ∉ active)
    (hgoal : t.resolveFrom fuel ((p ++ [name]) :: active) ((Path.ofText target).start p)
      (Path.ofText target).parts = (q, true)) :
    t.resolveFrom (fuel + 1) active p (name :: names)
      = t.resolveFrom (fuel + 1) active q names := by
  rw [resolveFrom, if_neg hname]
  simp only [hlink, if_neg hactive, hgoal]

/-- Resolving finds what names stand for: a link that is being resolved is not met again, since what
it points to lies deeper than what is left to resolve. -/
theorem Resolves.resolveFrom_eq {fuel : Nat} {active : List Place} (h : t.Resolves n p names q)
    (hnodup : active.Nodup) (hthere : ∀ link ∈ active, link ≠ [] ∧ t.get? link ≠ none)
    (hfuel : t.entries.length ≤ fuel + active.length) (hdeep : ∀ link ∈ active, t.Deep n link) :
    t.resolveFrom fuel active p names = (q, true) := by
  induction n using Nat.strongRecOn generalizing p names q fuel active with
  | ind n ihn =>
  induction names generalizing p with
  | nil =>
    cases h
    rw [resolveFrom]
  | cons name names ih =>
    cases h with
    | up tail =>
      rw [resolveFrom, if_pos rfl]
      exact ih tail
    | plain hname hlink tail =>
      rw [resolveFrom_step hname hlink]
      exact ih tail
    | @link n _ _ r _ target _ hname hlink goal tail =>
      have hactive : p ++ [name] ∉ active := fun hmem =>
        hdeep _ hmem p name target rfl hlink n (Nat.lt_succ_self n) r goal
      have hnodup' : ((p ++ [name]) :: active).Nodup := List.nodup_cons.mpr ⟨hactive, hnodup⟩
      have hthere' : ∀ link ∈ (p ++ [name]) :: active, link ≠ [] ∧ t.get? link ≠ none :=
        List.forall_mem_cons.mpr ⟨⟨by simp, by simp [hlink]⟩, hthere⟩
      have hlength := hnodup'.length_le_of_subset fun link hmem =>
        mem_entries_of_get? (hthere' link hmem).2 (hthere' link hmem).1
      rw [List.length_cons, List.length_map] at hlength
      obtain ⟨fuel, rfl⟩ : ∃ fuel', fuel = fuel' + 1 := ⟨fuel - 1, by omega⟩
      obtain ⟨k, hk, hshallowest, hmin⟩ := goal.shallowest
      have hdeep' : ∀ link ∈ (p ++ [name]) :: active, t.Deep k link := by
        refine List.forall_mem_cons.mpr ⟨?_, fun link hmem =>
          (hdeep link hmem).mono (Nat.le_succ_of_le hk)⟩
        intro front name' target' heq hlink' j hj r'
        obtain ⟨rfl, hname⟩ := List.append_inj' heq rfl
        obtain rfl := List.singleton_inj.mp hname
        rw [hlink, Option.some_inj, Node.link.injEq] at hlink'
        exact hlink' ▸ hmin j hj r'
      have hfuel' : t.entries.length ≤ fuel + ((p ++ [name]) :: active).length := by
        rw [List.length_cons]
        omega
      have hgoal := ihn k (Nat.lt_succ_of_le hk) hshallowest hnodup' hthere' hfuel' hdeep'
      rw [resolveFrom_link hname hlink hactive hgoal]
      exact ih tail

theorem resolve_of_resolves {here : Place} {path : Path}
    (h : t.Resolves n (path.start here) path.parts q) : t.resolve here path = .ok q := by
  rw [resolve, h.resolveFrom_eq List.nodup_nil (by simp) (by simp) (by simp)]

/-! ### Paths that can be walked -/

namespace Leads

variable {follow : Bool}

theorem weaken (h : t.Leads follow n p names q) (hnm : n ≤ m) : t.Leads follow m p names q := by
  induction h generalizing m with
  | stop => exact .stop
  | up _ ih => exact .up (ih hnm)
  | into plain found _ ih => exact .into plain found (ih hnm)
  | leaf plain found => exact .leaf plain found
  | kept plain found hfollow => exact .kept plain found hfollow
  | through plain found goesOn _ ih =>
    obtain ⟨m, rfl⟩ := Nat.exists_eq_add_of_le' (Nat.le_trans (Nat.le_add_left 1 _) hnm)
    exact .through plain found goesOn (ih (Nat.le_of_succ_le_succ hnm))

/-- A walk goes where its first names lead and on from there. -/
theorem split (h : t.Leads true n p (names ++ rest) q) :
    ∃ r, t.Leads true n p names r ∧ t.Leads true n r rest q := by
  generalize hall : names ++ rest = all at h
  induction h generalizing names with
  | stop =>
    obtain ⟨rfl, rfl⟩ := List.append_eq_nil_iff.mp hall
    exact ⟨_, .stop, .stop⟩
  | up tail ih =>
    rcases List.append_eq_cons_iff.mp hall with ⟨rfl, rfl⟩ | ⟨names, rfl, rfl⟩
    · exact ⟨_, .stop, .up tail⟩
    · obtain ⟨r, hr, hrest⟩ := ih rfl
      exact ⟨r, .up hr, hrest⟩
  | into plain found tail ih =>
    rcases List.append_eq_cons_iff.mp hall with ⟨rfl, rfl⟩ | ⟨names, rfl, rfl⟩
    · exact ⟨_, .stop, .into plain found tail⟩
    · obtain ⟨r, hr, hrest⟩ := ih rfl
      exact ⟨r, .into plain found hr, hrest⟩
  | leaf plain found =>
    rcases List.append_eq_cons_iff.mp hall with ⟨rfl, rfl⟩ | ⟨names, rfl, hend⟩
    · exact ⟨_, .stop, .leaf plain found⟩
    · obtain ⟨rfl, rfl⟩ := List.append_eq_nil_iff.mp hend.symm
      exact ⟨_, .leaf plain found, .stop⟩
  | kept _ _ hfollow => cases hfollow
  | @through n p q name target all' plain found goesOn tail ih =>
    rcases List.append_eq_cons_iff.mp hall with ⟨rfl, rfl⟩ | ⟨names, rfl, rfl⟩
    · exact ⟨p, .stop, .through plain found goesOn tail⟩
    · obtain ⟨r, hr, hrest⟩ := ih (List.append_assoc _ names rest)
      exact ⟨r, .through plain found (fun _ => rfl) hr, hrest.weaken (Nat.le_succ n)⟩

/-- Where a walk ends its names stand for the place, as no link on it holds more links than the walk
follows. -/
theorem resolves (h : t.Leads true n p names q) : t.Resolves n p names q := by
  induction n using Nat.strongRecOn generalizing p names q with
  | ind n ihn =>
  induction names generalizing p with
  | nil =>
    cases h
    exact .stop
  | cons name names ih =>
    cases h with
    | up tail => exact .up (ih tail)
    | into plain found tail =>
      exact .plain plain.1 (by simp [skeleton_eq_folder_iff.mp found]) (ih tail)
    | leaf plain found =>
      refine .plain plain.1 (fun target hlink => ?_) .stop
      rw [skeleton_eq_link_iff.mpr hlink] at found
      cases found
    | kept _ _ hfollow => cases hfollow
    | @through n _ _ _ target _ plain found goesOn tail =>
      obtain ⟨r, hgoal, hrest⟩ := tail.split
      exact .link plain.1 (skeleton_eq_link_iff.mp found) (ihn n (Nat.lt_succ_self n) hgoal)
        (ih (hrest.weaken (Nat.le_succ n)))

end Leads

/-- A path that can be walked stands for the place that the walk ends at. -/
theorem resolve_of_leads {here : Place} {path : Path}
    (h : t.Leads true linkBudget (path.start here) path.parts q) : t.resolve here path = .ok q :=
  resolve_of_resolves h.resolves

/-! ### Trees without loops -/

/-- No link leads back to itself: what a link points to stands for a place. -/
def LoopFree (t : Tree) : Prop :=
  ∀ p name target, t.get? (p ++ [name]) = some (.link target) →
    ∃ n q, t.Resolves n ((Path.ofText target).start p) (Path.ofText target).parts q

theorem Linkless.loopFree (h : t.Linkless) : t.LoopFree :=
  fun _ _ target hlink => absurd hlink (h _ target)

/-- Without loops all names stand for a place. -/
theorem LoopFree.resolves (h : t.LoopFree) (p : Place) (names : List String) :
    ∃ n q, t.Resolves n p names q := by
  induction names generalizing p with
  | nil => exact ⟨0, p, .stop⟩
  | cons name names ih =>
    by_cases hname : name = ".."
    · subst hname
      obtain ⟨n, q, htail⟩ := ih p.dropLast
      exact ⟨n, q, .up htail⟩
    · by_cases hlink : ∃ target, t.get? (p ++ [name]) = some (.link target)
      · obtain ⟨target, hlink⟩ := hlink
        obtain ⟨n, r, hgoal⟩ := h p name target hlink
        obtain ⟨m, q, htail⟩ := ih r
        exact ⟨max n m + 1, q, .link hname hlink (hgoal.weaken (Nat.le_max_left n m))
          (htail.weaken (Nat.le_succ_of_le (Nat.le_max_right n m)))⟩
      · obtain ⟨n, q, htail⟩ := ih (p ++ [name])
        exact ⟨n, q, .plain hname (fun target hget => hlink ⟨target, hget⟩) htail⟩

theorem LoopFree.resolve (h : t.LoopFree) (here : Place) (path : Path) :
    ∃ place, t.resolve here path = .ok place := by
  obtain ⟨n, q, hresolves⟩ := h.resolves (path.start here) path.parts
  exact ⟨q, resolve_of_resolves hresolves⟩

end Tree
end ConfigSteward
