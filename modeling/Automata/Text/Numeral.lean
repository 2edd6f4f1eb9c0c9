import Automata.Text.Blank

/-! # Reading whole numbers

A number is an optional sign and decimal digits, between blanks; here the information separators
are no blanks. Digits of any script count, a single underscore may stand between two digits, and
very long numbers are refused.
-/

namespace Automata.Text

/-- The code points of the digits zero; nine more digits follow each of them. -/
def zeros : List Nat :=
  [0x30, 0x660, 0x6f0, 0x7c0, 0x966, 0x9e6, 0xa66, 0xae6, 0xb66, 0xbe6, 0xc66, 0xce6, 0xd66, 0xde6,
    0xe50, 0xed0, 0xf20, 0x1040, 0x1090, 0x17e0, 0x1810, 0x1946, 0x19d0, 0x1a80, 0x1a90, 0x1b50,
    0x1bb0, 0x1c40, 0x1c50, 0xa620, 0xa8d0, 0xa900, 0xa9d0, 0xa9f0, 0xaa50, 0xabf0, 0xff10,
    0x104a0, 0x10d30, 0x11066, 0x110f0, 0x11136, 0x111d0, 0x112f0, 0x11450, 0x114d0, 0x11650,
    0x116c0, 0x11730, 0x118e0, 0x11950, 0x11c50, 0x11d50, 0x11da0, 0x16a60, 0x16ac0, 0x16b50,
    0x1d7ce, 0x1d7d8, 0x1d7e2, 0x1d7ec, 0x1d7f6, 0x1e140, 0x1e2f0, 0x1e950, 0x1fbf0]

/-- The value of a digit. -/
def digit? (c : Char) : Option Nat :=
  (zeros.find? fun z => z ≤ c.toNat && c.toNat ≤ z + 9).map (c.toNat - ·)

/-- The value of a list of digits, given what stands before it. -/
def digitsFrom (value : Nat) : List Char → Option Nat
  | [] => some value
  | '_' :: c :: cs => do digitsFrom (10 * value + (← digit? c)) cs
  | c :: cs => do digitsFrom (10 * value + (← digit? c)) cs

/-- The largest number of digits that is read. -/
def maxDigits : Nat := 4300

/-- The largest number that has no more digits than are read. -/
def largestNumber : Nat := Nat.pow 10 maxDigits - 1

/-- The value of a list of digits that is not empty, does not begin with an underscore and is not
    too long. -/
def natural? : List Char → Option Nat
  | [] => none
  | c :: cs =>
    if maxDigits < ((c :: cs).filter fun d => d != '_').length then none
    else do digitsFrom (← digit? c) cs

/-- Whether a character may stand around a number. -/
def isPadding (c : Char) : Bool := isBlank c && !isSeparator c

/-- The value of a whole number. -/
def integer? (s : String) : Option Int :=
  match trimBy isPadding s.toList with
  | '-' :: cs => (natural? cs).map fun n => -(n : Int)
  | '+' :: cs => (natural? cs).map fun n => (n : Int)
  | cs => (natural? cs).map fun n => (n : Int)

end Automata.Text
