/-! # Reading options

Arguments are options, values of options and positional arguments. A long option may carry its
value after `=`, a short one may have it joined on, and short flags may share a dash. After `--`
everything is positional.
-/

namespace Automata.CommandLine

/-- An option that a command knows. -/
structure OptionSpec where
  /-- The name after two dashes, by which the option is found in what has been read. -/
  long : String
  /-- The letter after one dash. -/
  short : Option Char := none
  /-- Whether the option takes a value. -/
  takesValue : Bool := false

/-- What has been read from a list of arguments. -/
structure Arguments where
  /-- The options in order, with their values. -/
  settings : List (String × Option String) := []
  positional : List String := []

namespace Arguments

/-- What has been read, after some options that came before. -/
def withSettings (l : List (String × Option String)) (a : Arguments) : Arguments :=
  { a with settings := l ++ a.settings }

/-- What has been read, after a positional argument that came before. -/
def withPositional (s : String) (a : Arguments) : Arguments :=
  { a with positional := s :: a.positional }

def has (a : Arguments) (long : String) : Bool := a.settings.any fun s => s.1 == long

def values (a : Arguments) (long : String) : List String :=
  a.settings.filterMap fun s => if s.1 = long then s.2 else none

def lastValue? (a : Arguments) (long : String) : Option String := (a.values long).getLast?

end Arguments

/-- What an argument that begins with a dash says: options with their values, and perhaps an option
    that takes the next argument as its value. -/
structure Dashed where
  /-- The options that are complete. -/
  settings : List (String × Option String) := []
  /-- The option whose value is the next argument. -/
  waiting : Option String := none

/-- The parts of a text before and after the first equals sign. -/
def splitEquals : List Char → List Char × Option (List Char)
  | [] => ([], none)
  | c :: cs =>
    if c = '=' then ([], some cs)
    else
      let (before, after) := splitEquals cs
      (c :: before, after)

/-- What a long option says, given what stands after its two dashes. -/
def readLong (specs : List OptionSpec) (cs : List Char) : Option Dashed := do
  let (name, value) := splitEquals cs
  let spec ← specs.find? fun s => s.long == String.ofList name
  match spec.takesValue, value with
  | true, some v => return { settings := [(spec.long, some (String.ofList v))] }
  | true, none => return { waiting := some spec.long }
  | false, none => return { settings := [(spec.long, none)] }
  | false, some _ => none

/-- What short options say, given what stands after their dash. -/
def readShort (specs : List OptionSpec) : List Char → Option Dashed
  | [] => some {}
  | c :: cs => do
    let spec ← specs.find? fun s => s.short == some c
    if spec.takesValue then
      match cs with
      | [] => return { waiting := some spec.long }
      | _ => return { settings := [(spec.long, some (String.ofList cs))] }
    else
      let more ← readShort specs cs
      return { more with settings := (spec.long, none) :: more.settings }

/-- What an argument says that begins with a dash and has more to it; `none` if it is no option of
    the command. -/
def readDashed (specs : List OptionSpec) : List Char → Option Dashed
  | '-' :: '-' :: cs => readLong specs cs
  | '-' :: cs => readShort specs cs
  | _ => none

/-- Whether an argument is read as an option. -/
def isDashed (arg : String) : Bool :=
  match arg.toList with
  | '-' :: _ :: _ => true
  | _ => false

/-- Reads a list of arguments; `none` is a usage error. Where options and positional arguments do
    not mix, the first positional argument ends the options. -/
def readArguments (specs : List OptionSpec) (mixed : Bool) : List String → Option Arguments
  | [] => some {}
  | arg :: rest =>
    if arg = "--" then some { positional := rest }
    else if isDashed arg then
      match readDashed specs arg.toList with
      | none => none
      | some ⟨settings, none⟩ => (readArguments specs mixed rest).map (·.withSettings settings)
      | some ⟨settings, some long⟩ =>
        match rest with
        | [] => none
        | value :: rest =>
          (readArguments specs mixed rest).map (·.withSettings (settings ++ [(long, some value)]))
    else if mixed then (readArguments specs mixed rest).map (·.withPositional arg)
    else some { positional := arg :: rest }

end Automata.CommandLine
