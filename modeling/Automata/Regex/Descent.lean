import Automata.Regex.Reader

/-! # Reading patterns by descent

A second reader, which calls itself for what stands in parentheses. It stops at the end of the
pattern or in front of a parenthesis that closes the group it is in, and hands on what it has not
read.
-/

namespace Automata.Regex

/-- What stands before and after the first closing bracket. -/
def splitBracket : List Char → Option (List Char × List Char)
  | [] => none
  | c :: cs =>
    if c = ']' then some ([], cs)
    else (splitBracket cs).map fun (before, after) => (c :: before, after)

theorem splitBracket_eq_some {cs before after : List Char}
    (h : splitBracket cs = some (before, after)) : cs = before ++ ']' :: after ∧ ']' ∉ before := by
  induction cs generalizing before with
  | nil => cases h
  | cons c cs ih =>
    rw [splitBracket] at h
    split at h
    · rename_i closing
      cases h
      exact ⟨by rw [closing, List.nil_append], List.not_mem_nil⟩
    · rename_i other
      obtain ⟨⟨before, after⟩, found, same⟩ := Option.map_eq_some_iff.1 h
      cases same
      obtain ⟨rfl, earlier⟩ := ih found
      exact ⟨rfl, by simp [Ne.symm other, earlier]⟩

theorem splitBracket_eq_none {cs : List Char} (h : splitBracket cs = none) : ']' ∉ cs := by
  induction cs with
  | nil => exact List.not_mem_nil
  | cons c cs ih =>
    rw [splitBracket] at h
    split at h
    · cases h
    · rename_i other
      simp [Ne.symm other, ih (Option.map_eq_none_iff.1 h)]

/-- The items that a text begins with, and the rest of the text. -/
structure Descent (cs : List Char) where
  items : List Regex
  /-- What has not been read. -/
  left : List Char
  shorter : left.length ≤ cs.length

/-- The same items at the beginning of a longer text. -/
def Descent.within {cs ds : List Char} (h : cs.length ≤ ds.length) (d : Descent cs) : Descent ds :=
  ⟨d.items, d.left, Nat.le_trans d.shorter h⟩

/-- Goes on with a group of which `f` has been read, as many parentheses being open as `depth`. -/
def descendFrom (pattern : String) (depth : Nat) (f : Frame) :
    (cs : List Char) → Except Error (Descent cs)
  | [] => .ok ⟨f.parts, [], Nat.le_refl _⟩
  | c :: cs =>
    if c = ')' then
      if depth = 0 then .error (.unbalanced ')' (pattern.length - (cs.length + 1)) pattern)
      else .ok ⟨f.parts, c :: cs, Nat.le_refl _⟩
    else if c = '(' then
      match descendFrom pattern (depth + 1) {} cs with
      | .error e => .error e
      | .ok ⟨_, [], _⟩ => .error (.unclosed ')' pattern.length pattern)
      | .ok ⟨items, _ :: left, shorter⟩ =>
        have : left.length < (c :: cs).length := by simp at shorter ⊢; omega
        (descendFrom pattern depth (f.push (.concat items)) left).map (.within (Nat.le_of_lt this))
    else if c = '[' then
      match found : splitBracket cs with
      | none => .error (.unclosed ']' pattern.length pattern)
      | some (letters, left) =>
        have : left.length < (c :: cs).length := by
          rw [(splitBracket_eq_some found).1]
          simp
          omega
        (descendFrom pattern depth
          (f.push (.choice (.ofList (letters.map Symbol.ofChar)))) left).map
            (.within (Nat.le_of_lt this))
    else
      match Reader.readItem pattern
        { position := pattern.length - (cs.length + 1), frame := f } c with
      | .error e => .error e
      | .ok r => (descendFrom pattern depth r.frame cs).map (.within (Nat.le_succ _))
termination_by cs => cs.length
decreasing_by
  · exact Nat.lt_succ_self _
  · exact this
  · exact this
  · exact Nat.lt_succ_self _

/-- The items at the beginning of a pattern, and what is left of it. A pattern of which something is
    left could not be read to its end. -/
def descend (pattern : String) : Except Error (List Regex × List Char) :=
  (descendFrom pattern 0 {} pattern.toList).map fun d => (d.items, d.left)

end Automata.Regex
