import ConfigSteward.Http.Message

/-! # Pages of other origins

A page of any origin may call the service. A request that names its origin gets a header that says
so with its answer, and a browser may ask beforehand whether a method is allowed.
-/
namespace ConfigSteward.Http

/-- The methods that pages of other origins may use. -/
def sharedMethods : List String :=
  ["DELETE", "GET", "HEAD", "OPTIONS", "PATCH", "POST", "PUT", "QUERY"]

def anyOrigin : String × String := ("access-control-allow-origin", "*")

/-- The headers of an answer to a browser that asks beforehand. -/
def preflightHeaders (r : Request) : List (String × String) :=
  anyOrigin :: ("access-control-allow-methods", ", ".intercalate sharedMethods)
    :: ("access-control-max-age", "600")
    :: ((r.header? "access-control-request-headers").map
      fun names => ("access-control-allow-headers", names)).toList

/-- The answer to a browser that asks beforehand, if the request is that question. -/
def preflight? (r : Request) : Option Answer :=
  match r.header? "origin", r.header? "access-control-request-method" with
  | some _, some method =>
    if r.method = "OPTIONS" then
      some <|
        if sharedMethods.contains method then ⟨200, preflightHeaders r, .text "OK"⟩
        else ⟨400, preflightHeaders r, .text "Disallowed CORS method"⟩
    else none
  | _, _ => none

/-- An answer as the request's origin gets it. -/
def shared (r : Request) (a : Answer) : Answer :=
  if (r.header? "origin").isSome then a.withHeaders [anyOrigin] else a

end ConfigSteward.Http
