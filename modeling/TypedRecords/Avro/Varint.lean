import TypedRecords.Powers

/-! Whole numbers as rows of bytes.
A number is folded so that small magnitudes of either sign come first, and is then written
in groups of seven bits, the lowest group first; all bytes but the last one are marked.
Ten groups hold sixty-four bits, and what a reader finds beyond those is dropped. -/
namespace TypedRecords.Avro.Varint

/-- 0, -1, 1, -2, 2, … in this order. -/
def fold (n : Int) : Nat := if 0 ≤ n then 2 * n.toNat else 2 * (-n).toNat - 1

def unfold (n : Nat) : Int := if n % 2 = 0 then (n / 2 : Nat) else -((n / 2 + 1 : Nat) : Int)

theorem unfold_fold (n : Int) : unfold (fold n) = n := by
  unfold unfold fold
  split <;> split <;> omega

def groups (n : Nat) : List UInt8 :=
  if n < 128 then [UInt8.ofNat n] else UInt8.ofNat (n % 128 + 128) :: groups (n / 128)

def encode (n : Int) : List UInt8 := groups (fold n)

/-- How reading a number can fail: there is no byte left, or none of the bytes that a number
may have was its last one. -/
inductive Fault where
  | ended | overlong
  deriving DecidableEq, Repr

def readGroups : (left : Nat) → List UInt8 → Except Fault (Nat × List UInt8)
  | 0, _ => .error .overlong
  | _ + 1, [] => .error .ended
  | left + 1, b :: rest =>
    if b < 128 then .ok (b.toNat, rest)
    else do
      let (n, rest) ← readGroups left rest
      return (b.toNat - 128 + 128 * n, rest)

def maxGroups : Nat := 10

def decode (bytes : List UInt8) : Except Fault (Int × List UInt8) := do
  let (n, rest) ← readGroups maxGroups bytes
  return (unfold (n % twoTo 64), rest)

theorem readGroups_groups (left n : Nat) (rest : List UInt8) (h : n < Nat.pow 128 (left + 1)) :
    readGroups (left + 1) (groups n ++ rest) = .ok (n, rest) := by
  induction left generalizing n with
  | zero =>
    have small : n < 128 := by simpa using h
    have lt : UInt8.ofNat n < 128 := by
      rw [UInt8.lt_iff_toNat_lt]
      simp
      omega
    rw [groups, if_pos small]
    simp only [List.cons_append, List.nil_append, readGroups, if_pos lt]
    simp
    omega
  | succ left ih =>
    rw [groups]
    split
    · rename_i small
      have lt : UInt8.ofNat n < 128 := by
        rw [UInt8.lt_iff_toNat_lt]
        simp
        omega
      simp only [List.cons_append, List.nil_append, readGroups, if_pos lt]
      simp
      omega
    · rename_i large
      have nlt : ¬ UInt8.ofNat (n % 128 + 128) < 128 := by
        rw [UInt8.lt_iff_toNat_lt]
        simp
        omega
      have bound : n / 128 < Nat.pow 128 (left + 1) := by
        rw [Nat.div_lt_iff_lt_mul (by decide)]
        exact h
      simp only [List.cons_append, readGroups, if_neg nlt, ih _ bound]
      simp [bind, Except.bind, pure, Except.pure]
      omega

end TypedRecords.Avro.Varint
