/-!
# Sets of code points as lists of ranges
-/
namespace ThriftLayout

abbrev CodeRanges := List (Nat × Nat)

/-- Whether a code point lies in one of the ranges. -/
def CodeRanges.holds (rs : CodeRanges) (c : Nat) : Bool := rs.any fun r => r.1 ≤ c && c ≤ r.2

end ThriftLayout
