import Automata.StateDiagram

/-! # Reports

What the command line prints: nested records, lists, texts and truth values, laid out as indented
JSON. A level is four blanks deep, every item has a line of its own, and characters outside of
ASCII stand as they are.
-/

namespace Automata

/-- A value of a report. -/
inductive Report where
  | text (s : String)
  | flag (b : Bool)
  | list (items : List Report)
  /-- Named values, in order. -/
  | record (fields : List (String × Report))

namespace Report

/-- A character as it stands in a text. -/
def escaped (c : Char) : List Char :=
  if c = '"' then ['\\', '"']
  else if c = '\\' then ['\\', '\\']
  else if c = '\n' then ['\\', 'n']
  else if c = '\r' then ['\\', 'r']
  else if c = '\t' then ['\\', 't']
  else if c = '\x08' then ['\\', 'b']
  else if c = '\x0c' then ['\\', 'f']
  else if c.toNat < 0x20 then '\\' :: 'u' :: Text.hexadecimal 4 c.toNat
  else [c]

/-- A text between double quotes. -/
def quoted (s : String) : String := String.ofList ('"' :: s.toList.flatMap escaped ++ ['"'])

/-- A line end and the blanks of a level. -/
def newLine (level : Nat) : String := String.ofList ('\n' :: List.replicate (4 * level) ' ')

/-- Items between brackets, each on a line of its own; without items the brackets touch. -/
def block (level : Nat) (opening closing : String) (items : List String) : String :=
  if items.isEmpty then opening ++ closing
  else
    opening ++ newLine (level + 1) ++ ("," ++ newLine (level + 1)).intercalate items
      ++ newLine level ++ closing

mutual

/-- The layout of a value at a level. -/
def render (level : Nat) : Report → String
  | .text s => quoted s
  | .flag b => if b then "true" else "false"
  | .list items => block level "[" "]" (renderItems (level + 1) items)
  | .record fields => block level "\x7b" "\x7d" (renderFields (level + 1) fields)

def renderItems (level : Nat) : List Report → List String
  | [] => []
  | r :: items => render level r :: renderItems level items

/-- The layouts of the fields of a record. -/
def renderFields (level : Nat) : List (String × Report) → List String
  | [] => []
  | (key, r) :: fields => (quoted key ++ ": " ++ render level r) :: renderFields level fields

end

def texts (l : List String) : Report := .list (l.map .text)

end Report

/-- A diagram as a record of its states, alphabet, edges, start state and accepting states. -/
def StateDiagram.report (d : StateDiagram) : Report :=
  .record [
    ("states", .texts (d.states.toList.map State.name)),
    ("alphabet", .texts d.alphabet.symbols),
    ("transitions",
      .list (d.edges.toList.map fun e => .texts [e.source.name, e.label, e.target.name])),
    ("start_state", .text d.start.name),
    ("accepting_states", .texts (d.accepting.toList.map State.name))]

end Automata
