import ConfigSteward.Json.Value
import ConfigSteward.Text.Blank
import ConfigSteward.Text.Utf8

/-! # Requests and answers of the web service

The names of a request's headers are in lower case. An answer's content is a JSON object or plain
text.
-/
namespace ConfigSteward.Http

structure Request where
  method : String
  /-- The path, its escapes resolved. -/
  path : String
  /-- What follows the question mark, as it was sent. -/
  query : String := ""
  headers : List (String × String) := []
  body : Bytes := []
  deriving DecidableEq, Repr

def Request.header? (r : Request) (name : String) : Option String :=
  (r.headers.find? (·.1 = name)).map (·.2)

inductive Content where
  | json (fields : List (String × Json))
  | text (s : String)
  deriving Repr

structure Answer where
  status : Nat
  headers : List (String × String) := []
  content : Content
  deriving Repr

namespace Answer

/-- An answer that the web service gives before any operation is asked for. -/
def detail (status : Nat) (text : String) (headers : List (String × String)) : Answer :=
  ⟨status, headers, .json [("detail", .text text)]⟩

def withHeaders (a : Answer) (headers : List (String × String)) : Answer :=
  { a with headers := a.headers ++ headers }

end Answer

/-- The type of a content: what stands before the first semicolon, in lower case. -/
def mediaType (header : String) : List Char :=
  (Text.trimBoth Text.isBlank (header.toList.takeWhile (· ≠ ';'))).map Char.toLower

/-- Whether a header announces JSON: the type `application/json` or one that ends in `+json`. -/
def announcesJson (header : String) : Bool :=
  match (mediaType header).span (· ≠ '/') with
  | (main, '/' :: subtype) =>
    main = "application".toList && !subtype.contains '/'
      && (subtype = "json".toList || "+json".toList.isSuffixOf subtype)
  | _ => false

end ConfigSteward.Http
