import ConfigSteward.Shell.Expansion
import Mathlib.Data.List.Forall2

/-!
# What patterns describe

`Matches` says which texts a pattern describes, and `accepts` finds out. The pattern of a word is made
of its fragments: what was quoted stands for itself, and the rest is read as a pattern.
-/
namespace ConfigSteward.Shell

/-- The texts that a pattern describes. -/
inductive Pattern.Matches : Pattern → List Char → Prop where
  | nil : Matches [] []
  | run {ps : Pattern} {cs : List Char} (skipped : List Char) (rest : Matches ps cs) :
      Matches (.anyText :: ps) (skipped ++ cs)
  | one {part : PatternPart} {ps : Pattern} {c : Char} {cs : List Char} (takes : part.takes c = true)
      (rest : Matches ps cs) : Matches (part :: ps) (c :: cs)

/-- The texts that a fragment of a word stands for where a pattern is wanted. -/
def Fragment.Describes : Fragment → List Char → Prop
  | .solid s, cs => cs = s.toList
  | .free s, cs | .loose s, cs => (Pattern.ofText s).Matches cs
  | .separate ss, cs => cs = (" ".intercalate ss).toList

namespace Pattern

variable {p q : Pattern} {part : PatternPart} {cs rest : List Char} {s : String}

private theorem mem_ends : rest ∈ ends cs ↔ rest <:+ cs := by
  induction cs with
  | nil => simp [ends]
  | cons c cs ih => rw [ends, List.mem_cons, ih, List.suffix_cons_iff]

private theorem accepts_part_nil (hpart : part ≠ .anyText) : accepts (part :: p) [] = false := by
  cases part with
  | anyText => exact absurd rfl hpart
  | _ => rfl

private theorem accepts_part_cons (hpart : part ≠ .anyText) (c : Char) :
    accepts (part :: p) (c :: cs) = (part.takes c && accepts p cs) := by
  cases part with
  | anyText => exact absurd rfl hpart
  | _ => rfl

/-- Exactly the texts that a pattern describes are accepted. -/
theorem accepts_iff : p.accepts cs = true ↔ p.Matches cs := by
  induction p generalizing cs with
  | nil =>
    rw [accepts, List.isEmpty_iff]
    constructor
    · rintro rfl
      exact .nil
    · rintro ⟨⟩
      rfl
  | cons part ps ih =>
    by_cases hpart : part = .anyText
    · subst hpart
      rw [accepts, List.any_eq_true]
      constructor
      · rintro ⟨rest, hrest, haccepts⟩
        obtain ⟨skipped, rfl⟩ := mem_ends.mp hrest
        exact .run skipped (ih.mp haccepts)
      · intro h
        cases h with
        | run skipped rest => exact ⟨_, mem_ends.mpr ⟨skipped, rfl⟩, ih.mpr rest⟩
        | one takes => simp [PatternPart.takes] at takes
    · cases cs with
      | nil =>
        rw [accepts_part_nil hpart]
        refine iff_of_false nofun fun h => ?_
        generalize hcs : ([] : List Char) = cs at h
        cases h with
        | run => exact hpart rfl
        | one => cases hcs
      | cons c cs =>
        rw [accepts_part_cons hpart, Bool.and_eq_true, ih]
        constructor
        · rintro ⟨takes, rest⟩
          exact .one takes rest
        · intro h
          generalize hcs : c :: cs = cs' at h
          cases h with
          | run => exact absurd rfl hpart
          | one takes rest =>
            cases hcs
            exact ⟨takes, rest⟩

/-- A text is described by two patterns in a row if it is made of two texts that they describe. -/
theorem matches_append : (p ++ q).Matches cs ↔ ∃ front rest, cs = front ++ rest ∧ p.Matches front ∧
    q.Matches rest := by
  induction p generalizing cs with
  | nil =>
    constructor
    · exact fun h => ⟨[], cs, rfl, .nil, h⟩
    · rintro ⟨front, rest, rfl, ⟨⟩, h⟩
      exact h
  | cons part ps ih =>
    constructor
    · intro h
      cases h with
      | run skipped h =>
        obtain ⟨front, rest, rfl, hfront, hrest⟩ := ih.mp h
        exact ⟨skipped ++ front, rest, (List.append_assoc ..).symm, .run skipped hfront, hrest⟩
      | one takes h =>
        obtain ⟨front, rest, rfl, hfront, hrest⟩ := ih.mp h
        exact ⟨_ :: front, rest, rfl, .one takes hfront, hrest⟩
    · rintro ⟨front, rest, rfl, hfront, hrest⟩
      cases hfront with
      | run skipped hfront =>
        rw [List.append_assoc]
        exact .run skipped (ih.mpr ⟨_, _, rfl, hfront, hrest⟩)
      | one takes hfront => exact .one takes (ih.mpr ⟨_, _, rfl, hfront, hrest⟩)

/-- A text taken literally stands for itself. -/
theorem matches_literal : (literal s).Matches cs ↔ cs = s.toList := by
  rw [literal]
  induction s.toList generalizing cs with
  | nil =>
    constructor
    · rintro ⟨⟩
      rfl
    · rintro rfl
      exact .nil
  | cons d ds ih =>
    constructor
    · intro h
      cases h with
      | one takes rest => rw [of_decide_eq_true takes, ih.mp rest]
    · rintro rfl
      exact .one (decide_eq_true rfl) (ih.mpr rfl)

end Pattern

/-- A text is accepted by the pattern of a word if it is made of texts that the word's fragments stand
for, in their order. -/
theorem accepts_patternOf {fs : List Fragment} {cs : List Char} : (patternOf fs).accepts cs = true ↔
    ∃ pieces, pieces.flatten = cs ∧ List.Forall₂ Fragment.Describes fs pieces := by
  rw [Pattern.accepts_iff]
  induction fs generalizing cs with
  | nil =>
    constructor
    · rintro ⟨⟩
      exact ⟨[], rfl, .nil⟩
    · rintro ⟨_, rfl, ⟨⟩⟩
      exact .nil
  | cons f fs ih =>
    have hpart : ∀ front, (patternOf [f]).Matches front ↔ f.Describes front := by
      intro front
      cases f with
      | solid s | separate ss => simp [patternOf, Fragment.Describes, Pattern.matches_literal]
      | free s | loose s => simp [patternOf, Fragment.Describes]
    have hcons : patternOf (f :: fs) = patternOf [f] ++ patternOf fs := by simp [patternOf]
    rw [hcons, Pattern.matches_append]
    constructor
    · rintro ⟨front, rest, rfl, hfront, hrest⟩
      obtain ⟨pieces, rfl, hpieces⟩ := ih.mp hrest
      exact ⟨front :: pieces, rfl, .cons ((hpart front).mp hfront) hpieces⟩
    · rintro ⟨_, rfl, _ | ⟨hfront, hpieces⟩⟩
      exact ⟨_, _, rfl, (hpart _).mpr hfront, ih.mpr ⟨_, rfl, hpieces⟩⟩

/-- Between quotes a star is a star. -/
example : (patternOf [.free "a*", .solid "*"]).accepts "abc*".toList = true ∧
    (patternOf [.free "a*", .solid "*"]).accepts "abc".toList = false := by decide

end ConfigSteward.Shell
