/-! # The content of a new server file -/
namespace ConfigSteward

/-- What the server block of a new file says. -/
structure ServerBlock where
  listen : Int := 80
  serverName : String := "localhost"
  root : String := "/usr/share/nginx/html"
  deriving DecidableEq, Repr

def ServerBlock.render (b : ServerBlock) : String :=
  "server \x7b\n    listen " ++ toString b.listen ++ ";\n    server_name " ++ b.serverName
    ++ ";\n\n    location / \x7b\n        root " ++ b.root
    ++ ";\n        index index.html index.htm;\n    \x7d\n\x7d\n"

end ConfigSteward
