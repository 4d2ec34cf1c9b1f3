/-
The built-in commands: what each is called and how it is described.

Names are pairwise different, so a name stands for at most one command (`ofName?_name`).
-/

namespace PageShell

/-- a command that the shell knows how to run -/
inductive Builtin where
  | ls
  | echo
  | cat
  | cd
  | pwd
  | help
  | clear
  | ping
  | whoami
  | steam
  | tree
  | env
  | which
  | fetchMusic
  deriving DecidableEq, Repr

namespace Builtin

/-- every command, in the order in which they are listed -/
def all : List Builtin :=
  [.ls, .echo, .cat, .cd, .pwd, .help, .clear, .ping, .whoami, .steam, .tree, .env, .which,
    .fetchMusic]

/-- the name that a command goes by -/
def name : Builtin → String
  | .ls => "ls"
  | .echo => "echo"
  | .cat => "cat"
  | .cd => "cd"
  | .pwd => "pwd"
  | .help => "help"
  | .clear => "clear"
  | .ping => "ping"
  | .whoami => "whoami"
  | .steam => "steam"
  | .tree => "tree"
  | .env => "env"
  | .which => "which"
  | .fetchMusic => "fetch-music"

/-- what a command does, in a few words -/
def description : Builtin → String
  | .ls => "list available directories"
  | .echo => "print text"
  | .cat => "print file contents"
  | .cd => "change directory"
  | .pwd => "print working directory"
  | .help => "display this message"
  | .clear => "clear the terminal"
  | .ping => "ping a server"
  | .whoami => "about me"
  | .steam => "steam"
  | .tree => "list directory tree"
  | .env => "print environment variables"
  | .which => "locate a command"
  | .fetchMusic => "what I'm listening to"

/-- the command of a name; upper and lower case differ -/
def ofName? (name : String) : Option Builtin :=
  all.find? (·.name == name)

theorem mem_all (b : Builtin) : b ∈ all := by
  cases b <;> decide

theorem ofName?_name (b : Builtin) : ofName? b.name = some b := by
  cases b <;> decide

end Builtin

end PageShell
