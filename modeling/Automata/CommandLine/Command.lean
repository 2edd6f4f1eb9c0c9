import Automata.CFG.Sample
import Automata.CFG.ToPDA
import Automata.CommandLine.Options
import Automata.DFA.Determinize
import Automata.DFA.Minimize
import Automata.GNFA.Eliminate
import Automata.NFA.OfRegex
import Automata.PDA.Run
import Automata.Report
import Automata.Text.Lines
import Automata.Text.Numeral
import Automata.Text.Plain

/-! # The commands

Testing texts against a pattern, extracting a pattern from the automaton of a pattern, and testing
and listing the words of a grammar. A command is first read from its arguments and then run; running
yields what is printed. What echoing makes of a text is left open until the end.
-/

namespace Automata.CommandLine

/-- What a command line asks for. -/
inductive Command where
  /-- Test texts against a pattern, on request by way of a deterministic or a minimal automaton. -/
  | regex (pattern alphabet : String) (texts : List String) (dfa minimize describe : Bool)
  /-- Extract a pattern, on request from the minimal automaton. -/
  | extract (pattern alphabet : String) (minimize : Bool)
  /-- Test texts against a grammar and list some of its words. -/
  | grammar (rules : List String) (start : String) (texts : List String) (count : Int)
      (bound : Option Int)

/-- The options before the name of a command. -/
def generalOptions : List OptionSpec := [⟨"debug", some 'g', false⟩]

/-- The options for testing texts against a pattern. Those that have a picture rendered or another
    file written are left out. -/
def regexOptions : List OptionSpec :=
  [⟨"alphabet", some 'a', true⟩, ⟨"text", some 't', true⟩, ⟨"dfa", some 'd', false⟩,
    ⟨"minimize", some 'm', false⟩, ⟨"describe", none, false⟩]

def extractOptions : List OptionSpec :=
  [⟨"alphabet", some 'a', true⟩, ⟨"minimize", some 'm', false⟩]

def grammarOptions : List OptionSpec :=
  [⟨"start", some 's', true⟩, ⟨"text", some 't', true⟩, ⟨"sample", some 'n', true⟩,
    ⟨"max-epsilon-steps", none, true⟩]

namespace Command

def readRegex (args : List String) : Option Command := do
  let a ← readArguments regexOptions true args
  let alphabet ← a.lastValue? "alphabet"
  match a.positional with
  | [pattern] =>
    return regex pattern alphabet (a.values "text") (a.has "dfa") (a.has "minimize")
      (a.has "describe")
  | _ => none

def readExtract (args : List String) : Option Command := do
  let a ← readArguments extractOptions true args
  let alphabet ← a.lastValue? "alphabet"
  match a.positional with
  | [pattern] => return extract pattern alphabet (a.has "minimize")
  | _ => none

def readGrammar (args : List String) : Option Command := do
  let a ← readArguments grammarOptions true args
  let count ← match a.lastValue? "sample" with
    | none => some 0
    | some s => Text.integer? s
  let bound ← match a.lastValue? "max-epsilon-steps" with
    | none => some none
    | some s => (Text.integer? s).map some
  if a.positional.isEmpty then none
  else return grammar a.positional ((a.lastValue? "start").getD "S") (a.values "text") count bound

/-- Reads a command line; `none` is a usage error. -/
def read (args : List String) : Option Command := do
  let a ← readArguments generalOptions false args
  match a.positional with
  | "regex" :: rest => readRegex rest
  | "extract" :: rest => readExtract rest
  | "grammar" :: rest => readGrammar rest
  | _ => none

/-- Tests texts one after the other. A text that is repeated is listed once. -/
def testAll (accepts : String → Except Error Bool) (texts : List String) :
    Except Error (Table String Bool) := do
  return .ofList (← texts.mapM fun s => do return (s, ← accepts s))

/-- The results of testing texts as a record. -/
def matchesReport (t : Table String Bool) : Report :=
  .record (t.entries.map fun e => (e.1, .flag e.2))

/-- What an automaton says about texts, and its diagram on request. -/
def automatonReport (pattern : String) (texts : List String) (describe : Bool)
    (accepts : String → Except Error Bool) (diagram : StateDiagram) : Except Error Report := do
  let results ← testAll accepts texts
  return .record <|
    [("pattern", .text pattern), ("matches", matchesReport results)]
      ++ if describe then [("automaton", diagram.report)] else []

/-- The automaton of a pattern over the characters of a text. -/
def compiled (pattern alphabet : String) : Except Error NFA := do
  let A ← Alphabet.ofString alphabet
  ((NFA.compile A pattern true).runFrom {}).1

/-- The deterministic automaton for a nondeterministic one, on request the minimal one. -/
def determinized (n : NFA) (minimize : Bool) : Except Error DFA := do
  let d ← n.determinize
  if minimize then d.minimize else return d

/-- The automaton that a pattern is extracted from, on request the minimal one. -/
def source (n : NFA) (minimize : Bool) : Except Error NFA := do
  if minimize then (← determinized n true).toNFA else return n

/-- The pattern that is extracted from an automaton. -/
def extracted (n : NFA) : Except Error String := (n.toPattern.runFrom (GNFA.bridgeAllocator n)).1

/-- The field with the first words of a grammar, if there is to be one. -/
def sampleField (c : CFG) (count : Int) : Except Error (List (String × Report)) := do
  if count = 0 then return []
  return [("sample", .texts (← c.sample (some count)))]

/-- What a command prints, where `echo` is what becomes of a text that is echoed. The results of
    testing texts against a pattern are written to a file instead. -/
def runWith (echo : String → String) : Command → Except Error String
  | regex pattern alphabet texts dfa minimize describe => do
    let n ← compiled pattern alphabet
    if dfa || minimize then
      let d ← determinized n minimize
      return (← automatonReport pattern texts describe d.accepts d.diagram).render 0 ++ "\n"
    else
      return (← automatonReport pattern texts describe n.accepts n.toStateDiagram).render 0 ++ "\n"
  | extract pattern alphabet minimize => do
    let n ← source (← compiled pattern alphabet) minimize
    return echo ((← extracted n) ++ "\n")
  | grammar rules start texts count bound => do
    let c ← CFG.ofRules rules start
    let m ← ((c.toPDA bound).runFrom {}).1
    let results ← testAll m.accepts texts
    let sample ← sampleField c count
    let fields := [("grammar", .texts (Text.lines c.text)), ("matches", matchesReport results)]
    return echo ((Report.record (fields ++ sample)).render 0 ++ "\n")

/-- What a command prints where no terminal listens. -/
def run (command : Command) : Except Error String := command.runWith Text.plain

end Command

end Automata.CommandLine
