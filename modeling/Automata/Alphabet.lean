import Automata.Error

/-! # Alphabets

An input alphabet is a set of characters with at least one member and without ε. A stack alphabet
is the same over symbols, which may be longer than one character.
-/

namespace Automata

/-- The characters that words are made of. -/
structure Alphabet where
  /-- The characters in ascending order. -/
  characters : SortedSet Char
  nonempty : characters ≠ ∅
  /-- The character ε is kept for moves that read nothing. -/
  epsilon_not_mem : 'ε' ∉ characters
  deriving DecidableEq

namespace Alphabet

instance : Membership Char Alphabet := ⟨fun A c => c ∈ A.characters⟩

instance (c : Char) (A : Alphabet) : Decidable (c ∈ A) :=
  inferInstanceAs (Decidable (c ∈ A.characters))

/-- The characters as symbols, in ascending order. -/
def symbols (A : Alphabet) : List Symbol := A.characters.toList.map Symbol.ofChar

/-- The alphabet of a set of characters. -/
def ofSet (characters : SortedSet Char) : Except Error Alphabet :=
  if hn : characters = ∅ then .error .emptyAlphabet
  else if he : 'ε' ∈ characters then .error .epsilonInAlphabet
  else .ok ⟨characters, hn, he⟩

/-- The alphabet of the characters of a text. -/
def ofString (s : String) : Except Error Alphabet := ofSet (.ofList s.toList)

/-- The character that a symbol consists of, if it is one character. -/
def character? (s : Symbol) : Option Char :=
  match s.toList with
  | [c] => some c
  | _ => none

/-- The alphabet of a list of symbols, each of which has to be one character. -/
def ofSymbols (l : List Symbol) : Except Error Alphabet :=
  if l = [] then .error .emptyAlphabet
  else if Symbol.epsilon ∈ l then .error .epsilonInAlphabet
  else
    match (SortedSet.ofList l).toList.find? fun s => (character? s).isNone with
    | some s => .error (.notACharacter s)
    | none => ofSet (.ofList (l.filterMap character?))

/-- Accepts a word whose characters all belong to the alphabet; otherwise its first character
    that does not is at fault. -/
def check (A : Alphabet) (word : String) : Except Error Unit :=
  match word.toList.find? fun c => decide (c ∉ A) with
  | some c => .error (.foreignCharacter word c A.symbols)
  | none => .ok ()

def text (A : Alphabet) : String := Text.braced A.symbols

end Alphabet

/-- The symbols that a stack may hold. -/
structure StackAlphabet where
  symbols : SortedSet Symbol
  nonempty : symbols ≠ ∅
  /-- The symbol ε is kept for popping or pushing nothing. -/
  epsilon_not_mem : Symbol.epsilon ∉ symbols
  deriving DecidableEq

namespace StackAlphabet

/-- The stack alphabet of a set of symbols. -/
def ofSet (symbols : SortedSet Symbol) : Except Error StackAlphabet :=
  if hn : symbols = ∅ then .error .emptyStackAlphabet
  else if he : Symbol.epsilon ∈ symbols then .error .epsilonInStackAlphabet
  else .ok ⟨symbols, hn, he⟩

/-- Accepts a word whose characters are all symbols of the alphabet; otherwise its first character
    that is none is at fault. -/
def check (A : StackAlphabet) (word : String) : Except Error Unit :=
  match word.toList.find? fun c => decide (Symbol.ofChar c ∉ A.symbols) with
  | some c => .error (.foreignCharacter word c A.symbols.toList)
  | none => .ok ()

def text (A : StackAlphabet) : String := Text.braced A.symbols.toList

end StackAlphabet

end Automata
