/-! Powers of two and of ten, and the numbers that fit into a width of bits. -/
namespace TypedRecords

def twoTo (k : Nat) : Nat := Nat.pow 2 k

def tenTo (k : Nat) : Nat := Nat.pow 10 k

/-- Whether a number fits into so many bits, one of which is for its sign. -/
def fitsSigned (bits : Nat) (n : Int) : Bool :=
  -(twoTo (bits - 1) : Int) ≤ n && n < twoTo (bits - 1)

def fitsUnsigned (bits : Nat) (n : Int) : Bool := 0 ≤ n && n < twoTo bits

theorem tenTo_pos (k : Nat) : 0 < tenTo k := Nat.pow_pos (by decide)

end TypedRecords
