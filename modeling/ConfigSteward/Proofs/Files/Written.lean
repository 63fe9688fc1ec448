import ConfigSteward.Files.Walk

/-!
# Written paths of places

A place that a path stands for is made of names that hold no slash and are not empty, and such a
place can be read off its written path. So two places with one written path are the same.
-/
namespace ConfigSteward

/-- Every name could stand between two slashes of a path. -/
def Written (names : List String) : Prop := ∀ name ∈ names, name ≠ "" ∧ '/' ∉ name.toList

theorem Written.append {names names' : List String} (h : Written names) (h' : Written names') :
    Written (names ++ names') := by
  intro name hname
  rcases List.mem_append.mp hname with hname | hname
  · exact h name hname
  · exact h' name hname

theorem Written.dropLast {names : List String} (h : Written names) : Written names.dropLast :=
  fun name hname => h name (List.dropLast_subset names hname)

namespace Path

theorem pieces_of_no_slash {cs : List Char} (h : '/' ∉ cs) : pieces cs = [cs] := by
  induction cs with
  | nil => rfl
  | cons c cs ih =>
    have hc : c ≠ '/' := fun heq => h (heq ▸ List.mem_cons_self)
    simp [pieces, hc, ih fun hmem => h (List.mem_cons_of_mem c hmem)]

theorem pieces_append_slash {cs : List Char} (h : '/' ∉ cs) (rest : List Char) :
    pieces (cs ++ '/' :: rest) = cs :: pieces rest := by
  induction cs with
  | nil => simp [pieces]
  | cons c cs ih =>
    have hc : c ≠ '/' := fun heq => h (heq ▸ List.mem_cons_self)
    simp [pieces, hc, ih fun hmem => h (List.mem_cons_of_mem c hmem)]

private theorem slash_notMem_of_mem_pieces {cs piece : List Char} (h : piece ∈ pieces cs) :
    '/' ∉ piece := by
  induction cs generalizing piece with
  | nil => simp_all [pieces]
  | cons c cs ih =>
    rw [pieces] at h
    split at h
    · rcases List.mem_cons.mp h with rfl | h
      · simp
      · exact ih h
    · next hc =>
      split at h
      · next first others heq =>
        rcases List.mem_cons.mp h with rfl | h
        · simpa [Ne.symm hc] using ih (heq ▸ List.mem_cons_self)
        · exact ih (heq ▸ List.mem_cons_of_mem first h)
      · rw [List.mem_singleton.mp h]
        simpa using Ne.symm hc

private theorem written_partsOfText (s : String) : Written (partsOfText s) := by
  intro part hpart
  obtain ⟨hpiece, hkept⟩ := List.mem_filter.mp hpart
  obtain ⟨piece, hmem, rfl⟩ := List.mem_map.mp hpiece
  refine ⟨?_, by simpa using slash_notMem_of_mem_pieces hmem⟩
  intro hempty
  simp [hempty] at hkept

private theorem written_ofText (s : String) : Written (ofText s).parts := written_partsOfText s

private theorem pieces_intercalate {names : List String} (h : Written names) (hne : names ≠ []) :
    pieces ("/".intercalate names).toList = names.map String.toList := by
  induction names with
  | nil => exact absurd rfl hne
  | cons name names ih =>
    have hname := (h name List.mem_cons_self).2
    cases names with
    | nil => simpa using pieces_of_no_slash hname
    | cons next rest =>
      have hrest : Written (next :: rest) := fun n hn => h n (List.mem_cons_of_mem name hn)
      rw [String.intercalate_cons_cons, String.toList_append, String.toList_append,
        List.append_assoc]
      exact (pieces_append_slash hname _).trans (congrArg (name.toList :: ·) (ih hrest (by simp)))

end Path

/-- A place is known from its written path. -/
theorem Place.eq_of_text {p q : Place} (hp : Written p) (hq : Written q)
    (h : p.path.text = q.path.text) : p = q := by
  have hbody : "/".intercalate p = "/".intercalate q := by
    simpa [Place.path, Path.text] using h
  have hempty {names : List String} (hnames : Written names) (hne : names ≠ []) :
      "/".intercalate names ≠ "" := by
    intro heq
    have hpieces := Path.pieces_intercalate hnames hne
    rw [heq] at hpieces
    cases names with
    | nil => exact hne rfl
    | cons name names =>
      have hname : name.toList = [] := (List.cons.inj hpieces).1.symm
      exact (hnames name List.mem_cons_self).1 (String.toList_eq_nil_iff.mp hname)
  cases hpn : p with
  | nil =>
    cases hqn : q with
    | nil => rfl
    | cons name names =>
      rw [hpn, hqn] at hbody
      exact absurd hbody.symm (hempty (hqn ▸ hq) (by simp))
  | cons name names =>
    cases hqn : q with
    | nil =>
      rw [hpn, hqn] at hbody
      exact absurd hbody (hempty (hpn ▸ hp) (by simp))
    | cons name' names' =>
      have hpieces := Path.pieces_intercalate hp (by simp [hpn])
      rw [hbody, Path.pieces_intercalate hq (by simp [hqn])] at hpieces
      rw [← hpn, ← hqn]
      exact ((List.map_inj_right fun _ _ => String.toList_inj.mp).mp hpieces).symm

namespace Path

private theorem written_start {here : Place} (h : Written here) (p : Path) : Written (p.start here) := by
  unfold start
  split
  · exact h
  · simp [Written]

private theorem written_collapse {place : Place} {names : List String} (h : Written place)
    (hnames : Written names) : Written (collapse place names) := by
  induction names generalizing place with
  | nil => exact h
  | cons name names ih =>
    have hrest : Written names := fun n hn => hnames n (List.mem_cons_of_mem name hn)
    rw [collapse]
    split
    · exact ih h.dropLast hrest
    · exact ih (h.append (by simpa [Written] using hnames name List.mem_cons_self)) hrest

end Path

namespace Tree

private theorem written_resolveFrom (t : Tree) (fuel : Nat) (active : List Place) (place : Place)
    (names : List String) (h : Written place) (hnames : Written names) :
    Written (t.resolveFrom fuel active place names).1 := by
  have step {place : Place} {name : String} {rest : List String} (h : Written place)
      (hnames : Written (name :: rest)) : Written (place ++ [name]) ∧ Written rest :=
    ⟨h.append (by simpa [Written] using hnames name List.mem_cons_self),
      fun n hn => hnames n (List.mem_cons_of_mem name hn)⟩
  fun_induction resolveFrom t fuel active place names with
  | case1 => exact h
  | case2 fuel active place rest ih => exact ih h.dropLast (step h hnames).2
  | case3 | case4 =>
    obtain ⟨hnext, hrest⟩ := step h hnames
    exact Path.written_collapse hnext hrest
  | case5 active place name rest _ _ target _ _ links goal reached heq ihgoal ihrest =>
    rw [heq] at ihgoal
    have hreached := ihgoal (Path.written_start h goal) (Path.written_ofText target)
    exact ihrest hreached (step h hnames).2
  | case6 active place name rest _ _ target _ _ links goal reached heq ihgoal =>
    rw [heq] at ihgoal
    have hreached := ihgoal (Path.written_start h goal) (Path.written_ofText target)
    exact Path.written_collapse hreached (step h hnames).2
  | case7 fuel active place name rest _ _ _ ih =>
    obtain ⟨hnext, hrest⟩ := step h hnames
    exact ih hnext hrest

/-- What a path stands for is made of names that a path could hold. -/
theorem written_resolve {t : Tree} {here place : Place} {p : Path} (hhere : Written here)
    (hp : Written p.parts) (h : t.resolve here p = .ok place) : Written place := by
  have hreached := t.written_resolveFrom t.entries.length [] (p.start here) p.parts
    (Path.written_start hhere p) hp
  unfold resolve at h
  split at h
  · next reached heq =>
    rw [heq] at hreached
    exact Except.ok.inj h ▸ hreached
  · next reached heq =>
    rw [heq] at hreached
    split at h
    · cases h
    · exact Except.ok.inj h ▸ hreached

end Tree
end ConfigSteward
