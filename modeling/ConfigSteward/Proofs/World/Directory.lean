import ConfigSteward.Proofs.Files.Children
import ConfigSteward.Proofs.World.Lands

/-!
# Folders of files

Where a path leads to a folder of nothing but files, the paths of its entries land in it, as long as
they are not too long, and its names are those of the files.
-/
namespace ConfigSteward

/-- A place is written with a slash before every name. -/
theorem Place.text_path_size {p : Place} (hp : p ≠ []) :
    p.path.text.utf8ByteSize = p.foldr (fun name size => name.utf8ByteSize + 1 + size) 0 := by
  suffices ("/".intercalate p).utf8ByteSize + 1
      = p.foldr (fun name size => name.utf8ByteSize + 1 + size) 0 by
    rw [Place.path, Path.text, String.utf8ByteSize_append, ← this, Nat.add_comm]
    rfl
  induction p with
  | nil => exact absurd rfl hp
  | cons name p ih =>
    cases p with
    | nil => simp
    | cons name' p =>
      have hslash : ("/" : String).utf8ByteSize = 1 := by decide
      rw [String.intercalate_cons_cons, String.utf8ByteSize_append, String.utf8ByteSize_append,
        List.foldr_cons, ← ih (by simp)]
      omega

theorem Place.text_path_replicate (n : Nat) (name : String) (names : List String)
    (hp : List.replicate n name ++ names ≠ []) :
    (Place.path (List.replicate n name ++ names)).text.utf8ByteSize
      = n * (name.utf8ByteSize + 1)
        + names.foldr (fun name size => name.utf8ByteSize + 1 + size) 0 := by
  rw [text_path_size hp, List.foldr_append]
  clear hp
  induction n with
  | zero => simp
  | succ n ih =>
    rw [List.replicate_succ, List.foldr_cons, ih, Nat.succ_mul]
    omega

namespace World

variable {w v : World} {p : Path} {folder : Place} {name : String} {node : Option Node}

/-- The path leads to a folder that holds nothing but files. -/
structure Flat (w : World) (p : Path) (folder : Place) : Prop where
  walk : w.tree.walk true w.here p = .ok folder
  there : w.tree.get? folder = some .folder
  files : ∀ name node, w.tree.get? (folder ++ [name]) = some node →
    ∃ bytes mode changed, node = .file bytes mode changed

namespace Flat

variable (h : w.Flat p folder)
include h

theorem leaf (name : String) : w.tree.skeleton (folder ++ [name]) = none := by
  rcases hget : w.tree.get? (folder ++ [name]) with _ | node
  · exact Tree.skeleton_of_vacant hget
  · obtain ⟨bytes, mode, changed, rfl⟩ := h.files name node hget
    exact Tree.skeleton_of_file hget

theorem lands (hname : Tree.Plain name)
    (hroom : (p.child name).text.utf8ByteSize ≤ longestPath) :
    w.Lands (p.child name) (folder ++ [name]) := by
  obtain ⟨-, hleads⟩ := Tree.walk_eq_ok_iff.mp h.walk
  exact ⟨Tree.walk_eq_ok_iff.mpr ⟨hroom, hleads.snoc h.there hname⟩, h.leaf name⟩

theorem of_alike (halike : w.Alike v) : v.Flat p folder := by
  obtain ⟨htree, hhere⟩ := halike
  exact ⟨by rw [htree, hhere, h.walk], by rw [htree, h.there], by rw [htree]; exact h.files⟩

theorem list_eq : w.list p = .ok (w.tree.children folder) := by
  simp only [list, onNode, h.walk, h.there]

/-- No folder and no link came or went. -/
theorem of_skeleton (hsame : ∀ q, v.tree.skeleton q = w.tree.skeleton q) (hhere : v.here = w.here) :
    v.Flat p folder := by
  refine ⟨hhere ▸ Tree.walk_mono (.of_eq hsame) h.walk, ?_, fun name node hget => ?_⟩
  · rw [← Tree.skeleton_eq_folder_iff, hsame, Tree.skeleton_eq_folder_iff, h.there]
  · rcases Tree.skeleton_eq_none_iff.mp ((hsame _).trans (h.leaf name)) with hnone | hfile
    · rw [hnone] at hget
      cases hget
    · obtain ⟨bytes, mode, changed, hfile⟩ := hfile
      exact ⟨bytes, mode, changed, Option.some.inj (hget.symm.trans hfile)⟩

/-- One of the files is written or taken away. -/
theorem of_sets (hset : w.tree.Sets (folder ++ [name]) node v.tree) (hhere : v.here = w.here)
    (hnode : ∀ n, node = some n → ∃ bytes mode changed, n = .file bytes mode changed) :
    v.Flat p folder := by
  have hleaf : v.tree.skeleton (folder ++ [name]) = none := by
    rcases hn : node with _ | n
    · exact Tree.skeleton_of_vacant (hset.self.trans hn)
    · obtain ⟨bytes, mode, changed, rfl⟩ := hnode n hn
      exact Tree.skeleton_of_file (hset.self.trans hn)
  exact h.of_skeleton (hset.skeleton_eq (h.leaf name) hleaf) hhere

end Flat

end World

/-! ### A folder with nothing in it -/

namespace Tree

variable {place q : Place} {node : Node}

/-- A place and those above it, each with a folder. -/
def spine (place : Place) : Tree :=
  ⟨(List.range place.length).map fun n => (place.take (n + 1), .folder)⟩

private theorem mem_spine : (q, node) ∈ (spine place).entries ↔ q ≠ [] ∧ q <+: place ∧ node = .folder := by
  simp only [spine, List.mem_map, List.mem_range, Prod.mk.injEq]
  constructor
  · rintro ⟨n, hn, rfl, rfl⟩
    refine ⟨fun hnil => ?_, List.take_prefix _ _, rfl⟩
    have hlength := congrArg List.length hnil
    rw [List.length_take, List.length_nil] at hlength
    omega
  · rintro ⟨hq, hfront, rfl⟩
    have hlength := hfront.length_le
    have hpos : 0 < q.length := List.length_pos_iff.mpr hq
    refine ⟨q.length - 1, by omega, ?_, rfl⟩
    rw [Nat.sub_add_cancel hpos]
    exact (List.prefix_iff_eq_take.mp hfront).symm

theorem get?_spine_iff : (spine place).get? q = some node ↔ q <+: place ∧ node = .folder := by
  by_cases hq : q = []
  · simp [hq, eq_comm]
  · constructor
    · intro hget
      exact (mem_spine.mp (get?_mem hget hq)).2
    · rintro ⟨hfront, rfl⟩
      have hmem : (q, Node.folder) ∈ (spine place).entries := mem_spine.mpr ⟨hq, hfront, rfl⟩
      obtain ⟨node, hget⟩ := Option.ne_none_iff_exists'.mp
        ((get?_ne_none_iff hq).mpr (List.mem_map_of_mem hmem))
      rw [hget, (mem_spine.mp (get?_mem hget hq)).2.2]

theorem spine_sound (place : Place) : (spine place).Sound := by
  intro q node hq hget
  exact get?_spine_iff.mpr ⟨(List.dropLast_prefix q).trans (get?_spine_iff.mp hget).1, rfl⟩

theorem spine_distinct (place : Place) : (spine place).Distinct := by
  rw [Distinct, spine, List.map_map]
  refine List.nodup_range.map_on fun n hn m hm heq => ?_
  have hlength := congrArg List.length heq
  simp only [Function.comp_apply, List.length_take] at hlength
  rw [List.mem_range] at hn hm
  omega

/-- Nothing is in the last of the folders. -/
theorem spine_empty (place : Place) (name : String) : (spine place).get? (place ++ [name]) = none := by
  rcases hget : (spine place).get? (place ++ [name]) with _ | node
  · rfl
  · have hlength := (get?_spine_iff.mp hget).1.length_le
    rw [List.length_append, List.length_singleton] at hlength
    omega

private theorem leads_spine {front names : List String} (hplace : place = front ++ names)
    (hplain : ∀ name ∈ names, Plain name) (follow : Bool) (links : Nat) :
    (spine place).Leads follow links front names place := by
  induction names generalizing front with
  | nil => rw [hplace, List.append_nil]; exact .stop
  | cons name names ih =>
    rw [List.forall_mem_cons] at hplain
    have hnext : place = front ++ [name] ++ names := by simp [hplace]
    refine .into hplain.1 (skeleton_eq_folder_iff.mpr ?_) (ih hnext hplain.2)
    exact get?_spine_iff.mpr ⟨hnext ▸ List.prefix_append _ _, rfl⟩

end Tree

/-- Where nothing but the folders above a place is there, its folder is empty. -/
theorem World.flat_spine {w : World} {place : Place} (htree : w.tree = .spine place)
    (hplain : ∀ name ∈ place, Tree.Plain name)
    (hroom : place.path.text.utf8ByteSize ≤ longestPath) : w.Flat place.path place := by
  refine ⟨?_, ?_, fun name node hget => ?_⟩
  · rw [htree]
    exact Tree.walk_eq_ok_iff.mpr ⟨hroom, Tree.leads_spine (List.nil_append place).symm hplain _ _⟩
  · rw [htree]
    exact Tree.get?_spine_iff.mpr ⟨List.prefix_rfl, rfl⟩
  · rw [htree, Tree.spine_empty] at hget
    cases hget

end ConfigSteward
