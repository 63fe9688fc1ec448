/-! # Blanks and words

`isBlank` is the class of characters that part words in a command's output; `words` splits a text
at runs of them and never yields an empty word. `isWhiteSpace` is the narrower property used when a
setting's text is trimmed: the four information separators are no white space.
-/
namespace ConfigSteward.Text

/-- The Unicode property White_Space. -/
def isWhiteSpace (c : Char) : Bool :=
  let n := c.toNat
  (9 ≤ n && n ≤ 13) || n = 0x20 || n = 0x85 || n = 0xA0 || n = 0x1680 || (0x2000 ≤ n && n ≤ 0x200A)
    || n = 0x2028 || n = 0x2029 || n = 0x202F || n = 0x205F || n = 0x3000

/-- White space and the information separators U+001C to U+001F. -/
def isBlank (c : Char) : Bool := isWhiteSpace c || (0x1C ≤ c.toNat && c.toNat ≤ 0x1F)

/-- The words of a text, where `word` holds the letters of the word under way, last first. -/
def wordsFrom (word : List Char) : List Char → List String
  | [] => if word.isEmpty then [] else [String.ofList word.reverse]
  | c :: r =>
    if isBlank c then
      (if word.isEmpty then [] else [String.ofList word.reverse]) ++ wordsFrom [] r
    else wordsFrom (c :: word) r

def words (s : String) : List String := wordsFrom [] s.toList

/-- Drop what satisfies `p` from both ends. -/
def trimBoth (p : Char → Bool) (cs : List Char) : List Char :=
  ((cs.dropWhile p).reverse.dropWhile p).reverse

end ConfigSteward.Text
