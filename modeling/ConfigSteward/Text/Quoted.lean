import ConfigSteward.Text.Printable

/-! # Quoted text

The form in which messages show a file name or another text: between single quotes, or between
double quotes where the text holds a single quote and no double one. The backslash, the quote and
everything that is not printable are escaped, the latter by two, four or eight hexadecimal digits.
-/
namespace ConfigSteward.Text

/-- The number `n` in lower-case hexadecimal, at least `width` digits. -/
def hex (width n : Nat) : List Char :=
  let digits := Nat.toDigits 16 n
  List.replicate (width - digits.length) '0' ++ digits

def escapeChar (quote c : Char) : List Char :=
  if c = quote || c = '\\' then ['\\', c]
  else if c = '\n' then ['\\', 'n']
  else if c = '\r' then ['\\', 'r']
  else if c = '\t' then ['\\', 't']
  else if isPrintable c then [c]
  else if c.toNat < 0x100 then ['\\', 'x'] ++ hex 2 c.toNat
  else if c.toNat < 0x10000 then ['\\', 'u'] ++ hex 4 c.toNat
  else ['\\', 'U'] ++ hex 8 c.toNat

/-- The quote that surrounds a text. -/
def quoteFor (cs : List Char) : Char :=
  if cs.contains '\'' && !cs.contains '"' then '"' else '\''

def quoted (s : String) : String :=
  let cs := s.toList
  let quote := quoteFor cs
  String.ofList (quote :: cs.flatMap (escapeChar quote) ++ [quote])

end ConfigSteward.Text
