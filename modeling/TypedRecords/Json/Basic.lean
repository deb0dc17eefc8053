import TypedRecords.Assoc
import TypedRecords.Binary

/-! JSON values.
A number is whole when it is written without fraction and exponent and fits into
sixty-four bits; any other number is a floating point number. The fields of an object
are kept in key order, each key once. -/
namespace TypedRecords

inductive Json where
  | null
  | bool (b : Bool)
  | int (n : Int)
  | float (x : Binary64)
  | str (s : String)
  | arr (items : List Json)
  | obj (fields : List (String × Json))
  deriving Inhabited

namespace Json

def ofFields (pairs : List (String × Json)) : Json := .obj (Assoc.insertAll [] pairs)

def strings (items : List String) : Json := .arr (items.map .str)

/-- Two floating point numbers in a document are the same if their bits are, or both are
zero; a whole number is never the same as a floating point number. -/
def sameFloat (x y : Binary64) : Bool := x == y || x.magnitude == 0 && y.magnitude == 0

mutual
def beq : Json → Json → Bool
  | .null, .null => true
  | .bool a, .bool b => a == b
  | .int a, .int b => a == b
  | .float a, .float b => sameFloat a b
  | .str a, .str b => a == b
  | .arr a, .arr b => beqItems a b
  | .obj a, .obj b => beqFields a b
  | _, _ => false

def beqItems : List Json → List Json → Bool
  | [], [] => true
  | a :: as, b :: bs => beq a b && beqItems as bs
  | _, _ => false

def beqFields : List (String × Json) → List (String × Json) → Bool
  | [], [] => true
  | (k, a) :: as, (l, b) :: bs => k == l && beq a b && beqFields as bs
  | _, _ => false
end

instance : BEq Json := ⟨beq⟩

mutual
/-- A bound on the work of walking a value: one step for every value, and one more for
every item of a list. -/
def size : Json → Nat
  | .arr items => 1 + sizeItems items
  | .obj fields => 1 + sizeFields fields
  | _ => 1

def sizeItems : List Json → Nat
  | [] => 0
  | j :: rest => 1 + j.size + sizeItems rest

def sizeFields : List (String × Json) → Nat
  | [] => 0
  | (_, j) :: rest => j.size + sizeFields rest
end

theorem size_le_of_find? {key : String} {fields : List (String × Json)} {j : Json}
    (h : Assoc.find? key fields = some j) : j.size ≤ sizeFields fields := by
  induction fields with
  | nil => simp [Assoc.find?] at h
  | cons head rest ih =>
    obtain ⟨k, v⟩ := head
    simp only [Assoc.find?] at h
    split at h
    · cases h
      simp only [sizeFields]
      omega
    · have := ih h
      simp only [sizeFields]
      omega

theorem sizeOf_find?_lt {key : String} {fields : List (String × Json)} {j : Json}
    (h : Assoc.find? key fields = some j) : sizeOf j < sizeOf fields := by
  induction fields with
  | nil => simp [Assoc.find?] at h
  | cons head rest ih =>
    obtain ⟨k, v⟩ := head
    simp only [Assoc.find?] at h
    split at h
    · cases h
      simp
      omega
    · have := ih h
      simp
      omega

theorem sizeFields_zip_le (names : List String) (items : List Json) :
    sizeFields (names.zip items) ≤ sizeItems items := by
  induction names generalizing items with
  | nil => simp [sizeFields]
  | cons n names ih =>
    cases items with
    | nil => simp [sizeFields, sizeItems]
    | cons j items =>
      have := ih items
      simp only [List.zip_cons_cons, sizeFields, sizeItems]
      omega

def isNull : Json → Bool
  | .null => true
  | _ => false

def str? : Json → Option String
  | .str s => some s
  | _ => none

def bool? : Json → Option Bool
  | .bool b => some b
  | _ => none

def items? : Json → Option (List Json)
  | .arr items => some items
  | _ => none

def fields? : Json → Option (List (String × Json))
  | .obj fields => some fields
  | _ => none

def intIf? (allowed : Int → Bool) : Json → Option Int
  | .int n => if allowed n then some n else none
  | _ => none

def int32? (j : Json) : Option Int32 := (intIf? (fitsSigned 32) j).map Int32.ofInt

def int64? (j : Json) : Option Int64 := (intIf? (fitsSigned 64) j).map Int64.ofInt

def byte? (j : Json) : Option UInt8 :=
  (intIf? (fitsUnsigned 8) j).map fun n => UInt8.ofNat n.toNat

def binary64? : Json → Option Binary64
  | .int n => some (.ofInt n)
  | .float x => some x
  | _ => none

end Json
end TypedRecords
