import ConfigSteward.Files.Path
import ConfigSteward.Number.Shortest
import ConfigSteward.Settings.Value

/-! # Settings

The settings are nine fields, each with a default, a key under which a file gives a value for it and
a variable of the environment that does so too.
-/
namespace ConfigSteward

structure Settings where
  configPath : Path := Path.ofText "/etc/nginx/nginx.conf"
  serversDir : Path := Path.ofText "/etc/nginx/servers"
  backupsDir : Path := Path.ofText "./backups"
  nginxBin : String := "nginx"
  processName : String := "nginx"
  commandTimeout : Binary64 := Binary64.ofDecimal false 30 0
  host : String := "0.0.0.0"
  port : Nat := 49856
  logLevel : String := "info"
  deriving DecidableEq, Repr

namespace Settings

inductive Field where
  | configPath
  | serversDir
  | backupsDir
  | nginxBin
  | processName
  | commandTimeout
  | host
  | port
  | logLevel
  deriving DecidableEq, Repr

namespace Field

/-- The fields in the order in which their faults are reported. -/
def all : List Field :=
  [configPath, serversDir, backupsDir, nginxBin, processName, commandTimeout, host, port, logLevel]

def key : Field → String
  | configPath => "config_path"
  | serversDir => "servers_dir"
  | backupsDir => "backups_dir"
  | nginxBin => "nginx_bin"
  | processName => "process_name"
  | commandTimeout => "command_timeout"
  | host => "host"
  | port => "port"
  | logLevel => "log_level"

/-- The variable of the environment that sets the field. -/
def variableName : Field → String
  | configPath => "NGINX_CONFIG_PATH"
  | serversDir => "NGINX_SERVERS_DIR"
  | backupsDir => "BACKUP_DIR"
  | nginxBin => "NGINX_BIN"
  | processName => "NGINX_PROCESS_NAME"
  | commandTimeout => "COMMAND_TIMEOUT"
  | host => "HOST"
  | port => "PORT"
  | logLevel => "LOG_LEVEL"

/-- What a field holds. -/
def Content : Field → Type
  | configPath | serversDir | backupsDir => Path
  | nginxBin | processName | host | logLevel => String
  | commandTimeout => Binary64
  | port => Nat

end Field

/-- What the settings hold in a field. -/
def field (s : Settings) : (f : Field) → f.Content
  | .configPath => s.configPath
  | .serversDir => s.serversDir
  | .backupsDir => s.backupsDir
  | .nginxBin => s.nginxBin
  | .processName => s.processName
  | .commandTimeout => s.commandTimeout
  | .host => s.host
  | .port => s.port
  | .logLevel => s.logLevel

/-- Set one field. -/
def put (s : Settings) : (f : Field) → f.Content → Settings
  | .configPath, p => { s with configPath := p }
  | .serversDir, p => { s with serversDir := p }
  | .backupsDir, p => { s with backupsDir := p }
  | .nginxBin, t => { s with nginxBin := t }
  | .processName, t => { s with processName := t }
  | .commandTimeout, x => { s with commandTimeout := x }
  | .host, t => { s with host := t }
  | .port, n => { s with port := n }
  | .logLevel, t => { s with logLevel := t }

/-- Values given under keys. -/
abbrev Values := List (String × Value)

/-- The value given under a key. -/
def valueOf? (values : Values) (key : String) : Option Value :=
  (values.find? (·.1 = key)).map (·.2)

/-- Give a value under a key, in place of one given before. -/
def give (values : Values) (key : String) (v : Value) : Values :=
  if values.any (·.1 = key) then values.map fun e => if e.1 = key then (key, v) else e
  else values ++ [(key, v)]

def isKnown (key : String) : Bool := Field.all.any fun f => f.key = key

/-- The keys that name no field. -/
def unknownKeys (values : Values) : List String := (values.map (·.1)).filter fun key => !isKnown key

/-- Times are written positionally from a ten-thousandth of a second up to, but not including,
`10 ^ 16` seconds; whole numbers keep a fraction of zero. -/
def timeLayout : Binary64.Layout := ⟨16, -4, 2, ".0"⟩

/-- The time limit as it is written. -/
def timeoutText (s : Settings) : String := s.commandTimeout.text timeLayout

end Settings
end ConfigSteward
