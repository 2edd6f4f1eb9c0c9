import Automata.DFA.Basic
import Automata.Sorting

/-! # Drawing state diagrams

The source of a picture in the DOT language: the states in order, then one arrow for every pair of
states that some edge joins, labelled with all the symbols of its edges.
-/

namespace Automata

namespace Dot

/-- Whether a character may begin a name that needs no quotes. -/
def isNameStart (c : Char) : Bool := c.isAlpha || c == '_'

def isName : List Char → Bool
  | [] => false
  | c :: cs => isNameStart c && cs.all fun d => isNameStart d || d.isDigit

/-- Whether a list of characters is a decimal fraction without a sign. -/
def isFraction (cs : List Char) : Bool :=
  match cs.dropWhile Char.isDigit with
  | [] => !cs.isEmpty
  | '.' :: fraction =>
    fraction.all Char.isDigit && !(fraction.isEmpty && (cs.takeWhile Char.isDigit).isEmpty)
  | _ => false

def isNumber : List Char → Bool
  | '-' :: cs => isFraction cs
  | cs => isFraction cs

/-- The words of the language itself. -/
def keywords : List String := ["node", "edge", "graph", "digraph", "subgraph", "strict"]

/-- Whether a text is markup: it stands between angle brackets. -/
def isMarkup (cs : List Char) : Bool :=
  match cs with
  | '<' :: rest => rest.getLast? == some '>'
  | _ => false

/-- Puts a backslash before every double quote that has an even number of them before it. -/
def escapeQuotes (odd : Bool) : List Char → List Char
  | [] => []
  | c :: cs =>
    if c = '"' then (if odd then ['"'] else ['\\', '"']) ++ escapeQuotes false cs
    else c :: escapeQuotes (c == '\\' && !odd) cs

/-- A list of characters without the line feed at its end. -/
def dropLineFeed (cs : List Char) : List Char :=
  if cs.getLast? == some '\n' then cs.dropLast else cs

/-- An identifier: names, numbers and markup stand as they are, all else between double quotes. A
    line feed at the end makes no difference to what a text is taken for. -/
def identifier (s : String) : String :=
  let cs := dropLineFeed s.toList
  if isMarkup cs then s
  else if (isName cs || isNumber cs) && !keywords.contains s.toLower then s
  else String.ofList ('"' :: escapeQuotes false s.toList ++ ['"'])

/-- A line of attributes for a node or an arrow. -/
def statement (subject : String) (attributes : List (String × String)) : String :=
  let shown := attributes.map fun (key, value) => s!"{key}={identifier value}"
  s!"\t{subject} [" ++ " ".intercalate shown ++ "]\n"

end Dot

namespace StateDiagram

/-- The line of a state: green if it is the start, with a double rim if it is accepting. -/
def drawState (d : StateDiagram) (p : State) : String :=
  Dot.statement (Dot.identifier p.name)
    [("color", if p = d.start then "green" else ""),
      ("shape", if p ∈ d.accepting then "doublecircle" else "circle"), ("style", "filled")]

/-- The pairs of states that some edge joins, in order. -/
def joined (d : StateDiagram) : List (State × State) :=
  (Sorting.sortBy (compareLex (compareOn Prod.fst) (compareOn Prod.snd))
    (d.edges.toList.map fun e => (e.source, e.target))).eraseDups

/-- The labels on the edges of a pair. -/
def labelsBetween (d : StateDiagram) (k : State × State) : SortedSet Symbol :=
  .ofList ((d.edges.toList.filter fun e => decide (e.source = k.1 ∧ e.target = k.2)).map
    Edge.label)

/-- The arrow of a pair: dotted and blue if all it can do is an ε-move. -/
def drawPair (d : StateDiagram) (k : State × State) : String :=
  let arrow := Dot.identifier k.1.name ++ " -> " ++ Dot.identifier k.2.name
  let labels := (d.labelsBetween k).toList
  if labels = [Symbol.epsilon] then
    Dot.statement arrow [("label", Symbol.epsilon), ("color", "blue"), ("style", "dotted")]
  else Dot.statement arrow [("label", ", ".intercalate labels), ("color", "black")]

/-- The source of a picture of the diagram. -/
def draw (d : StateDiagram) (kind : String) : String :=
  let name := kind ++ ", ".intercalate (d.states.toList.map State.name)
  String.join <|
    [s!"digraph {Dot.identifier name} \x7b\n", Dot.statement "graph" [("rankdir", "LR")],
      Dot.statement "node" [("fontname", "verdana")],
      Dot.statement "edge" [("fontname", "verdana")]]
      ++ d.states.toList.map d.drawState
      ++ d.joined.map d.drawPair
      ++ [Dot.statement "start" [("shape", "none")],
        Dot.statement ("start -> " ++ Dot.identifier d.start.name) [("arrowhead", "vee")], "\x7d\n"]

end StateDiagram

end Automata
