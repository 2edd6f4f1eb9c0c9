/-! # Shortlex order

Shorter texts come first, and texts of one length are ordered by their code points.
-/

namespace Automata.Text

/-- The order by length, then by code points. -/
def shortlex : String → String → Ordering := compareLex (compareOn String.length) compare

instance : Std.TransCmp shortlex :=
  inferInstanceAs (Std.TransCmp (compareLex (compareOn String.length) compare))

end Automata.Text
