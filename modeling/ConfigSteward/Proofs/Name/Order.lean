import ConfigSteward.Proofs.Time.Order
import Mathlib.Data.String.Basic

/-!
# The order of the names of backups

The names of the backups of one artifact are in the order of their times, and within one second in
the order of their counters: a name without a counter goes on with a point, which comes before the
underscore of a counter.
-/
namespace ConfigSteward

section
variable {xs ys : List Char} {k l m n : Nat}

private theorem append_lt_append_iff (front : List Char) : front ++ xs < front ++ ys ↔ xs < ys := by
  induction front with
  | nil => rfl
  | cons x front ih => simp [ih]

/-- Two numbers below 100 that are compared one after the other are compared as one number. -/
theorem lex_iff_number {p : Prop} (hk : k < 100) (hl : l < 100) :
    m < n ∨ m = n ∧ (k < l ∨ k = l ∧ p) ↔
      m * 100 + k < n * 100 + l ∨ m * 100 + k = n * 100 + l ∧ p := by
  by_cases hp : p
  · simp only [hp, and_true]
    omega
  · simp only [hp, and_false, or_false]
    omega

namespace Stamp

private theorem digitChar_lt_iff : ∀ m < 10, ∀ n < 10, Nat.digitChar m < Nat.digitChar n ↔ m < n := by
  decide

theorem digitChar_inj : ∀ m < 10, ∀ n < 10, Nat.digitChar m = Nat.digitChar n ↔ m = n := by
  decide

/-- Numbers of two places are compared first, then what follows them. -/
theorem twoPlaces_append_lt_iff (hm : m < 100) (hn : n < 100) :
    twoPlaces m ++ xs < twoPlaces n ++ ys ↔ m < n ∨ m = n ∧ xs < ys := by
  have hm' : m / 10 < 10 := by omega
  have hn' : n / 10 < 10 := by omega
  have hones : m % 10 < 10 ∧ n % 10 < 10 := by omega
  simp only [twoPlaces, List.cons_append, List.nil_append, List.cons_lt_cons_iff,
    digitChar_lt_iff _ hm' _ hn', digitChar_inj _ hm' _ hn', digitChar_lt_iff _ hones.1 _ hones.2,
    digitChar_inj _ hones.1 _ hones.2]
  by_cases hrest : xs < ys
  · simp only [hrest, and_true]
    omega
  · simp only [hrest, and_false, or_false]
    omega

/-- Stamps are compared as the readings in them. -/
theorem writeChars_append_lt_iff {a b : Civil} (ha : a.Stampable) (hb : b.Stampable) :
    writeChars a ++ xs < writeChars b ++ ys ↔ a.number < b.number ∨ a.number = b.number ∧ xs < ys := by
  have hyear : a.year / 100 < 100 ∧ b.year / 100 < 100 := by have := ha.year; have := hb.year; omega
  have hyear' : a.year % 100 < 100 ∧ b.year % 100 < 100 := by omega
  simp only [writeChars, toDigits_year ha.year.1 ha.year.2, toDigits_year hb.year.1 hb.year.2,
    List.append_assoc, List.cons_append, twoPlaces_append_lt_iff hyear.1 hyear.2,
    twoPlaces_append_lt_iff hyear'.1 hyear'.2, twoPlaces_append_lt_iff ha.month hb.month,
    twoPlaces_append_lt_iff ha.day hb.day, twoPlaces_append_lt_iff ha.hour hb.hour,
    twoPlaces_append_lt_iff ha.minute hb.minute, twoPlaces_append_lt_iff ha.second hb.second,
    List.cons_lt_cons_self]
  have hwhole (year : Nat) : year / 100 * 100 + year % 100 = year := by omega
  rw [lex_iff_number hyear'.1 hyear'.2, hwhole, hwhole, lex_iff_number ha.month hb.month,
    lex_iff_number ha.day hb.day, lex_iff_number ha.hour hb.hour,
    lex_iff_number ha.minute hb.minute, lex_iff_number ha.second hb.second, Civil.number,
    Civil.number]

end Stamp

namespace Name

private theorem writeCounter_append_lt_iff (hk : k < 100) (hl : l < 100) :
    writeCounter k ++ backupSuffix.toList < writeCounter l ++ backupSuffix.toList ↔ k < l := by
  by_cases hk' : k = 0 <;> by_cases hl' : l = 0
  · simp [hk', hl']
  · have hpoint : ([] ++ backupSuffix.toList) < ('_' :: Stamp.twoPlaces l) ++ backupSuffix.toList :=
      List.Lex.rel (by decide)
    simp only [writeCounter, hk', hl', if_true, if_false, hpoint, true_iff]
    omega
  · have hpoint : ¬ ('_' :: Stamp.twoPlaces k) ++ backupSuffix.toList < [] ++ backupSuffix.toList :=
      List.lt_asymm (List.Lex.rel (by decide))
    simp only [writeCounter, hk', hl', if_true, if_false, hpoint, false_iff]
    omega
  · simp only [writeCounter, hk', hl', if_false, List.cons_append, List.cons_lt_cons_self,
      Stamp.twoPlaces_append_lt_iff hk hl, List.lt_irrefl, and_false, or_false]

/-- The names of backups are ordered by time and counter. -/
theorem writeBackup_lt_iff (artifact : String) {a b : Civil} (ha : a.Stampable) (hb : b.Stampable)
    (hk : k < 100) (hl : l < 100) : writeBackup artifact a k < writeBackup artifact b l ↔
      a.number < b.number ∨ a.number = b.number ∧ k < l := by
  rw [String.lt_iff_toList_lt, toList_writeBackup, toList_writeBackup]
  simp only [List.append_assoc, List.cons_append, append_lt_append_iff, List.cons_lt_cons_self,
    Stamp.writeChars_append_lt_iff ha hb, writeCounter_append_lt_iff hk hl]

end Name
end
end ConfigSteward
