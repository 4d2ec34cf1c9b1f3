/-
What can go wrong with a command, how it is worded, and which exit status it gives.
-/

namespace PageShell

/-- an exit status; zero is success -/
abbrev ExitStatus := Nat

/-- why a command fails -/
inductive ShellError where
  | notFound (command operand : String)
  | cannotAccess (operand : String)
  | directoryNotFound (path : String)
  | notADirectory (command operand : String)
  | isADirectory (command operand : String)
  /-- a file of bytes, which cannot be shown -/
  | unsupportedType
  | unreachable (address : String)
  | commandNotFound (name : String)
  | notOnPath (name : String)
  | missingOperand (command : String)
  | missingDestination
  deriving DecidableEq, Repr

namespace ShellError

/-- the wording of an error -/
def message : ShellError → String
  | .notFound command operand => command ++ ": " ++ operand ++ ": No such file or directory"
  | .cannotAccess operand => "ls: cannot access '" ++ operand ++ "': No such file or directory"
  | .directoryNotFound path => "cd: The directory " ++ path ++ " does not exist"
  | .notADirectory command operand => command ++ ": " ++ operand ++ " is not a directory"
  | .isADirectory command operand => command ++ ": " ++ operand ++ ": Is a directory"
  | .unsupportedType => "File type not supported!"
  | .unreachable address => "ping: " ++ address ++ ": Address not reachable"
  | .commandNotFound name => name ++ ": command not found"
  | .notOnPath name => "which: " ++ name ++ ": command not found"
  | .missingOperand command => command ++ ": missing operand"
  | .missingDestination => "ping: usage error: Destination address required"

/-- the exit status of an error; a file that cannot be shown still counts as success -/
def status : ShellError → ExitStatus
  | .unsupportedType => 0
  | _ => 1

end ShellError

/-- why a probe brings no reply -/
inductive ProbeError where
  | network (reason : String)
  | timeout
  deriving DecidableEq, Repr

/-- the wording of a failed probe -/
def ProbeError.message : ProbeError → String
  | .network reason => "network error: " ++ reason
  | .timeout => "request timed out"

end PageShell
