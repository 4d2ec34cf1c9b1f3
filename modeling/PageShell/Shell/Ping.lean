/-
The command that asks a host for replies.

Up to `count` probes are sent one after another, with a pause between two of them. Each reply is
written down; the first probe without one ends the command with an error.
-/
import PageShell.Shell.Context
import PageShell.Shell.Process

namespace PageShell.Ping

/-- how many probes are sent -/
def count : Nat := 5

/-- the pause between two probes, in milliseconds -/
def interval : Nat := 1000

/-- the first line -/
def header (address : String) : Line :=
  .text ("PING " ++ address ++ " 56 data bytes")

/-- the line of a reply -/
def replyLine (address : String) (number : Nat) (elapsed : Duration) : Line :=
  .text ("64 bytes from " ++ address ++ ": icmp_seq=" ++ toString number ++ " time="
    ++ elapsed.text ++ " ms")

/-- send `n` probes, the first of which has the number `number` -/
def probes (address : String) : (n number : Nat) → Process (Except ShellError Effect)
  | 0, _ => .done (.ok .nothing)
  | n + 1, number =>
    .probe address fun
      | .error _ => .done (.error (.unreachable address))
      | .ok elapsed =>
        .write (.append (replyLine address number elapsed))
          (if n = 0 then .done (.ok .nothing) else .sleep interval (probes address n (number + 1)))

/-- the command -/
def run (args : List String) : Process (Except ShellError Effect) :=
  match args with
  | [] => .done (.error .missingDestination)
  | address :: _ => .write (.append (header address)) (probes address count 1)

end PageShell.Ping
