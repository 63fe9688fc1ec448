import ConfigSteward.Http.Message
import ConfigSteward.Json.Reader
import ConfigSteward.Refusal

/-! # Bodies of requests

A body is a JSON object whose fields are texts. `readObject` gives its fields, or the reason why
there are none; the other readers take the fields that one operation needs.
-/
namespace ConfigSteward.Http

/-- What is wrong with a body: the place and the words for it. -/
structure Complaint where
  loc : List Json
  message : String
  deriving Repr

namespace Complaint

def atBody (message : String) : Complaint := ⟨[.text "body"], message⟩

def missing : String := "Field required"

def notAText : String := "Input should be a valid string"

def notAnObject : String := "Input should be a valid dictionary or object to extract fields from"

def badJson (index : Nat) : Complaint := ⟨[.text "body", .nat index], "JSON decode error"⟩

def atField (key message : String) : Complaint := ⟨[.text "body", .text key], message⟩

def json (c : Complaint) : Json := .object [("loc", .list c.loc), ("msg", .text c.message)]

end Complaint

/-- Why a body is not taken. -/
inductive BodyFault where
  | unreadable
  | complaints (cs : List Complaint)
  deriving Repr

/-- The refusal of a request whose body has faults. -/
def invalidRequest (cs : List Complaint) : Refusal :=
  ⟨.badRequest, some "invalid request", [("details", .list (cs.map Complaint.json))]⟩

/-- The fields of the object that a body holds. -/
def readObject (r : Request) : Except BodyFault (List (String × Json)) :=
  if r.body.isEmpty then .error (.complaints [.atBody Complaint.missing])
  else if announcesJson ((r.header? "content-type").getD "") then
    match Json.ofBytes r.body with
    | .ok (.object fields) => .ok fields
    | .ok _ => .error (.complaints [.atBody Complaint.notAnObject])
    | .error (.grammar index) => .error (.complaints [.badJson index])
    | .error .unreadable => .error .unreadable
  else .error (.complaints [.atBody Complaint.notAnObject])

/-- A text under a key. -/
def textField (key : String) : Json → Except Complaint RawText
  | .text s => .ok s
  | .broken t => .ok (.broken t)
  | _ => .error (.atField key Complaint.notAText)

/-- The field `content`, which has to be there. -/
def contentOf (fields : List (String × Json)) : Except (List Complaint) RawText :=
  match Json.field? fields "content" with
  | none => .error [.atField "content" Complaint.missing]
  | some value => (textField "content" value).mapError ([·])

/-- A name under a key. No name with half of a surrogate pair is safe, and none with U+FFFD is either,
which stands in for it. -/
def nameField (key : String) (value : Json) : Except Complaint String :=
  (textField key value).map RawText.lossy

/-- The fields of a new server file: its name, empty if not given, and its content. -/
def newServerOf (fields : List (String × Json)) :
    Except (List Complaint) (String × Option RawText) :=
  let name : Except Complaint String := match Json.field? fields "name" with
    | none => .ok ""
    | some value => nameField "name" value
  let content : Except Complaint (Option RawText) := match Json.field? fields "content" with
    | none => .ok none
    | some .null => .ok none
    | some value => (textField "content" value).map some
  match name, content with
  | .ok name, .ok content => .ok (name, content)
  | .error c, .ok _ => .error [c]
  | .ok _, .error c => .error [c]
  | .error c, .error d => .error [c, d]

/-- The new name of a server file, empty if not given. Of its two spellings the first one wins. -/
def newNameOf (fields : List (String × Json)) : Except (List Complaint) String :=
  match Json.field? fields "newName", Json.field? fields "new_name" with
  | some value, _ => (nameField "newName" value).mapError ([·])
  | none, some value => (nameField "new_name" value).mapError ([·])
  | none, none => .ok ""

end ConfigSteward.Http
