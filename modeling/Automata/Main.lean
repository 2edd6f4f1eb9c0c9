import Automata.CommandLine.Command

/-! # The program

Reads a command from the arguments, runs it and prints what it yields. A usage error ends the
program with exit code 2, a failing command with exit code 1 and its message.
-/

def main (args : List String) : IO UInt32 := do
  match Automata.CommandLine.Command.read args with
  | none =>
    IO.eprintln "usage: [--debug] (regex | extract | grammar) ..."
    return 2
  | some command =>
    match command.run with
    | .ok output =>
      IO.print output
      return 0
    | .error e =>
      IO.eprintln e.message
      return 1
