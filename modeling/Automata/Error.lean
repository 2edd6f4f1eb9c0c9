import Automata.State
import Automata.Text.Quoted

/-! # What can go wrong

One constructor per cause, with what its message mentions. `Error.kind` groups the causes by
what was at fault, and `Error.message` words them.
-/

namespace Automata

/-- A reason why an operation has no result. -/
inductive Error where
  | emptyAlphabet
  | epsilonInAlphabet
  /-- An alphabet symbol that is not one character. -/
  | notACharacter (symbol : Symbol)
  | emptyStackAlphabet
  | epsilonInStackAlphabet
  | foreignCharacter (word : String) (character : Char) (alphabet : List Symbol)
  /-- Edges labelled with symbols from outside the alphabet. -/
  | foreignLabels (labels : SortedSet Symbol) (alphabet : List Symbol)
  /-- Rules that read symbols from outside the input alphabet. -/
  | foreignReads (symbols : SortedSet Symbol) (alphabet : List Symbol)
  /-- Rules that pop or push symbols from outside the stack alphabet. -/
  | foreignStack (symbols : SortedSet Symbol) (alphabet : List Symbol)
  /-- Productions with terminals from outside the alphabet. -/
  | foreignTerminals (terminals : SortedSet Symbol) (alphabet : List Symbol)
  | bottomInAlphabet
  | alphabetsDiffer (first second : List Symbol)
  /-- Edges that leave from states outside the state set. -/
  | foreignSources (states : SortedSet State)
  /-- A question about a state that the automaton does not have. -/
  | notAState (state : State) (automaton : String)
  /-- A question about a state that the generalized automaton does not have. -/
  | notAGeneralState (state : State)
  | cannotRip (state : State)
  | sharedStates (states : SortedSet State)
  /-- The state drawn for a union is a state of an operand. -/
  | stateInUse (state : State)
  /-- The state drawn for a star is a state of the operand. -/
  | stateTaken (state : State) (automaton : String)
  /-- A state drawn for a bridge is a state of the automaton. -/
  | bridgeTaken (start accept : State) (automaton : String)
  /-- A generalized transition over another state set than its automaton's. -/
  | coversOther (covered expected : SortedSet State)
  | startOutside (start : State) (states : SortedSet State)
  | acceptingOutside (missing states : SortedSet State)
  /-- Edges that lead to states outside the state set. -/
  | foreignTargets (states : SortedSet State)
  /-- A start state outside the state set, which the message leaves out. -/
  | startMissing (start : State)
  /-- Accepting states outside the state set, which the message leaves out. -/
  | acceptingMissing (missing : SortedSet State)
  /-- The accepting state of a generalized automaton is outside its state set. -/
  | acceptMissing (accept : State)
  | undefinedMove (state : State) (character : Char)
  | startAccepts
  /-- Labelled pairs that reach states outside the state set. -/
  | foreignPairs (states : SortedSet State)
  | startEntered (start : State)
  | acceptLeft (accept : State)
  | negativeBound (bound : Int)
  | nothingToConcatenate
  | nothingToUnite
  | exponentTooSmall (exponent : Int)
  /-- A pattern in which a closing character is missing at a position. -/
  | unclosed (closing : Char) (position : Nat) (pattern : String)
  /-- A pattern in which a closing character has nothing to close. -/
  | unbalanced (closing : Char) (position : Nat) (pattern : String)
  /-- A pattern in which a quantifier has nothing before it. -/
  | nothingToRepeat (position : Nat) (pattern : String)
  | noArrow (rule : String)
  /-- A rule whose left side is not one nonterminal. -/
  | badHead (rule : String)
  | startUndeclared (start : String)
  /-- Productions with nonterminals that are not declared. -/
  | undeclared (names : SortedSet String)
  /-- A relabelling that says nothing about a state in use. -/
  | unmapped (state : State)
  /-- A position before the beginning of a word. -/
  | beforeBeginning (position : Int)
  /-- A number of samples that cannot be asked for. -/
  | badLimit (limit : Int)
  /-- An allocator whose next number is too large for a name. -/
  | numbersExhausted
  deriving DecidableEq

namespace Error

/-- What an error is about. -/
inductive Kind where
  | alphabet
  /-- Alphabets that should agree. -/
  | mismatch
  /-- States that are unknown or taken. -/
  | state
  /-- The shape of an automaton or the operands of an operation. -/
  | automaton
  | pattern
  | grammar
  | key
  /-- A position that does not exist. -/
  | index
  /-- A number out of range. -/
  | value
  deriving DecidableEq, Repr

def kind : Error → Kind
  | emptyAlphabet | epsilonInAlphabet | notACharacter _ | emptyStackAlphabet
  | epsilonInStackAlphabet | foreignCharacter _ _ _ | foreignLabels _ _ | foreignReads _ _
  | foreignStack _ _ | foreignTerminals _ _ | bottomInAlphabet => .alphabet
  | alphabetsDiffer _ _ => .mismatch
  | foreignSources _ | notAState _ _ | notAGeneralState _ | cannotRip _ | sharedStates _
  | stateInUse _ | stateTaken _ _ | bridgeTaken _ _ _ | coversOther _ _ => .state
  | startOutside _ _ | acceptingOutside _ _ | foreignTargets _ | startMissing _
  | acceptingMissing _ | acceptMissing _ | undefinedMove _ _ | startAccepts | foreignPairs _
  | startEntered _ | acceptLeft _ | negativeBound _ | nothingToConcatenate | nothingToUnite
  | exponentTooSmall _ => .automaton
  | unclosed _ _ _ | unbalanced _ _ _ | nothingToRepeat _ _ => .pattern
  | noArrow _ | badHead _ | startUndeclared _ | undeclared _ => .grammar
  | unmapped _ => .key
  | beforeBeginning _ => .index
  | badLimit _ | numbersExhausted => .value

def statesText (states : SortedSet State) : String :=
  Text.bracketed (states.toList.map State.name)

def symbolsText (symbols : SortedSet Symbol) : String := Text.quotedList symbols.toList

open Text in
def message : Error → String
  | emptyAlphabet => "alphabet must contain at least 1 symbol"
  | epsilonInAlphabet =>
    s!"{quoted Symbol.epsilon} is reserved and cannot be part of an alphabet"
  | notACharacter symbol =>
    s!"alphabet symbols must be single characters: got {quoted symbol}"
  | emptyStackAlphabet => "stack alphabet must contain at least 1 symbol"
  | epsilonInStackAlphabet =>
    s!"{quoted Symbol.epsilon} is reserved and cannot be part of a stack alphabet"
  | foreignCharacter word c alphabet =>
    s!"string {quoted word} contains symbol {quoted (Symbol.ofChar c)} not in alphabet "
      ++ braced alphabet
  | foreignLabels labels alphabet =>
    s!"transitions use symbols {symbolsText labels} not in alphabet {braced alphabet}"
  | foreignReads symbols alphabet =>
    s!"transitions read symbols {symbolsText symbols} not in {braced alphabet}"
  | foreignStack symbols alphabet =>
    s!"transitions use stack symbols {symbolsText symbols} not in {braced alphabet}"
  | foreignTerminals terminals alphabet =>
    s!"rules use terminals {symbolsText terminals} not in {braced alphabet}"
  | bottomInAlphabet => s!"{quoted Symbol.bottom} is reserved for the bottom of the stack"
  | alphabetsDiffer first second =>
    s!"cannot combine automata over {braced first} and {braced second}"
  | foreignSources states =>
    s!"transitions leave from states {statesText states} outside the state set"
  | notAState state automaton => s!"{state.name} is not a state of {automaton}"
  | notAGeneralState state => s!"{state.name} is not a state of this GNFA"
  | cannotRip state => s!"cannot rip the start or accepting state {state.name}"
  | sharedStates states =>
    s!"automata share states {statesText states}, relabel one with clone_replace_states()"
  | stateInUse state => s!"allocator produced {state.name}, which is already in use"
  | stateTaken state automaton =>
    s!"allocator produced {state.name}, which is already in {automaton}"
  | bridgeTaken start accept automaton =>
    s!"allocator produced states {start.name} and {accept.name} already in {automaton}"
  | coversOther covered expected =>
    s!"transition covers states {statesText covered}, expected {statesText expected}"
  | startOutside start states =>
    s!"start state {start.name} is not in the state set {statesText states}"
  | acceptingOutside missing states =>
    s!"accepting states {statesText missing} are not in the state set {statesText states}"
  | foreignTargets states =>
    s!"transition targets {statesText states} are not in the state set"
  | startMissing start => s!"start state {start.name} is not in the state set"
  | acceptingMissing missing =>
    s!"accepting states {statesText missing} are not in the state set"
  | acceptMissing accept => s!"accepting state {accept.name} is not in the state set"
  | undefinedMove state c =>
    s!"transition δ({state.name}, {quoted (Symbol.ofChar c)}) is undefined"
  | startAccepts => "the start and accepting states of a GNFA must differ"
  | foreignPairs states => s!"edges reach states {statesText states} outside the state set"
  | startEntered start => s!"start state {start.name} has incoming edges"
  | acceptLeft accept => s!"accepting state {accept.name} has outgoing edges"
  | negativeBound bound => s!"max_epsilon_steps must not be negative, got {bound}"
  | nothingToConcatenate => "concatenate() needs at least one automaton"
  | nothingToUnite => "union() needs at least one automaton"
  | exponentTooSmall exponent => s!"power must be at least 1, got {exponent}"
  | unclosed closing position pattern =>
    s!"expected {quoted (Symbol.ofChar closing)} at position {position} of "
      ++ s!"{quoted pattern}: found EOF"
  | unbalanced closing position pattern =>
    s!"unbalanced {quoted (Symbol.ofChar closing)} at position {position} of {quoted pattern}"
  | nothingToRepeat position pattern =>
    s!"nothing to repeat at position {position} of {quoted pattern}"
  | noArrow rule => s!"rule {quoted rule} has no '->'"
  | badHead rule =>
    s!"the left side of rule {quoted rule} must be a single uppercase variable"
  | startUndeclared start => s!"start variable {start} is not a variable of the grammar"
  | undeclared names => s!"rules use undeclared variables {quotedList names.toList}"
  | unmapped state => s!"no new name for state {state.name}"
  | beforeBeginning position => s!"no character at position {position}"
  | badLimit limit => s!"cannot list {limit} samples"
  | numbersExhausted => "the next state has a number with too many digits"

end Error

/-- A property of a result that can be computed holds of what did not fail. -/
theorem exists_ok_of_any {α : Type} {r : Except Error α} {p : α → Prop} [DecidablePred p]
    (computed : r.toOption.any (fun x => decide (p x)) = true) : ∃ x, r = .ok x ∧ p x := by
  cases r with
  | error e => cases computed
  | ok x => exact ⟨x, rfl, of_decide_eq_true computed⟩

end Automata
