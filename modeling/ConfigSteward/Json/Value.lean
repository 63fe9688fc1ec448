import ConfigSteward.Text.Raw

/-! # JSON values

Numbers are kept exactly, as a mantissa and a power of ten. `special` stands for the words that some
writers use for numbers that are not finite. A text that holds half of a surrogate pair is `broken`; in
a key the half stands as U+FFFD. Fields keep the order in which they were written.
-/
namespace ConfigSteward

inductive Json where
  | null
  | bool (b : Bool)
  | number (mantissa : Int) (exponent : Int)
  | special (word : String)
  | text (s : String)
  | broken (t : BrokenText)
  | list (items : List Json)
  | object (fields : List (String × Json))
  deriving Repr

namespace Json

def nat (n : Nat) : Json := number n 0

def int (n : Int) : Json := number n 0

/-- A text as a value. -/
def ofRaw : RawText → Json
  | .whole s => text s
  | .broken t => broken t

/-- A text, or null where there is none. -/
def ofText? : Option String → Json
  | some s => text s
  | none => null

/-- Set a field: in place if it is there, else at the end. -/
def setField (fields : List (String × Json)) (key : String) (value : Json) : List (String × Json) :=
  if fields.any (·.1 = key) then fields.map fun f => if f.1 = key then (key, value) else f
  else fields ++ [(key, value)]

/-- The first of the fields with a key. -/
def field? (fields : List (String × Json)) (key : String) : Option Json :=
  (fields.find? (·.1 = key)).map (·.2)

@[simp] theorem field?_setField (fields : List (String × Json)) (key : String) (value : Json) :
    field? (setField fields key value) key = some value := by
  unfold field? setField
  split
  · next h =>
    induction fields with
    | nil => simp at h
    | cons f fs ih =>
      by_cases hf : f.1 = key
      · simp [hf]
      · have h' : fs.any (·.1 = key) = true := by simpa [hf] using h
        simp only [List.map_cons, hf, if_false]
        rw [List.find?_cons_of_neg (by simpa using hf)]
        exact ih h'
  · next h =>
    rw [List.find?_append]
    have : fields.find? (·.1 = key) = none := by
      rw [List.find?_eq_none]
      intro f hf hk
      exact h (List.any_eq_true.mpr ⟨f, hf, hk⟩)
    simp [this]

end Json
end ConfigSteward
