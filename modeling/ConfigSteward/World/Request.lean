import ConfigSteward.Command.Result
import ConfigSteward.Files.Path
import ConfigSteward.Refusal

/-! # Requests to the surroundings

Everything that an operation does besides computing is one of these requests. Each is one step that
either happens as a whole or fails: a file's content is written by `fill` after `create` or
`createTemp` has made the file.
-/
namespace ConfigSteward

inductive Kind where
  | file
  | folder
  deriving DecidableEq, Repr

/-- What is known of an entry without reading it. -/
structure Status where
  kind : Kind
  mode : Nat
  size : Nat
  changed : Changed
  deriving DecidableEq, Repr

inductive Request where
  /-- The content of a file. -/
  | read (p : Path)
  /-- What a path leads to, links followed. -/
  | look (p : Path)
  /-- The names in a folder. -/
  | list (p : Path)
  /-- Make an empty file where there is no entry yet. -/
  | create (p : Path)
  /-- Make an empty file in a folder under a fresh hidden name made from `base`. -/
  | createTemp (folder : Path) (base : String)
  /-- Write the content of a file that was just made. -/
  | fill (p : Path) (bytes : Bytes)
  | setMode (p : Path) (mode : Nat)
  /-- Move an entry in one step, over a file or a link that is there. -/
  | move (source target : Path)
  | unlink (p : Path)
  | makeFolder (p : Path)
  /-- The place that a path stands for. -/
  | resolve (p : Path)
  | run (args : List String)
  | clock
  /-- The latest reading noted for an artifact. -/
  | latest (artifact : String)
  | note (artifact : String) (reading : Civil)
  | acquire (lock : Place)
  | release (lock : Place)

/-- What comes back from a request. -/
abbrev Request.Reply : Request → Type
  | read _ => Except Fault Bytes
  | look _ => Except Fault Status
  | list _ => Except Fault (List String)
  | create _ => Except Fault Unit
  | createTemp _ _ => Except Fault Path
  | fill _ _ => Except Fault Unit
  | setMode _ _ => Except Fault Unit
  | move _ _ => Except Fault Unit
  | unlink _ => Except Fault Unit
  | makeFolder _ => Except Fault Unit
  | resolve _ => Except Place Place
  | run _ => Except Failure CommandResult
  | clock => Civil
  | latest _ => Option Civil
  | note _ _ => Unit
  | acquire _ => Unit
  | release _ => Unit

end ConfigSteward
