/-! # Results of external programs -/
namespace ConfigSteward

/-- How a program ended: whether it went well, its merged output, its exit code (minus the number of
the signal that ended it) and whether it ran out of time. -/
structure CommandResult where
  exitOk : Bool
  output : String := ""
  exitCode : Option Int := none
  timedOut : Bool := false
  deriving DecidableEq, Repr

namespace CommandResult

/-- The program could not be started or raised an error. -/
def failed (output : String) : CommandResult := ⟨false, output, none, false⟩

end CommandResult
end ConfigSteward
