/-! # Sets of code points

Character classes are given as tables of code points. A table is a list of inclusive ranges, or of
strides where every second code point belongs to the class.
-/
namespace FlatGrammar.Text

def inRanges (ranges : List (Nat × Nat)) (c : Char) : Bool :=
  ranges.any fun (first, last) => first ≤ c.toNat && c.toNat ≤ last

def inStrides (strides : List (Nat × Nat × Nat)) (c : Char) : Bool :=
  strides.any fun (first, last, step) =>
    first ≤ c.toNat && c.toNat ≤ last && (c.toNat - first) % step == 0

end FlatGrammar.Text
