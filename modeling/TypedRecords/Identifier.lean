/-! Identifiers and the names made from free labels.
An identifier is an ASCII letter or underscore followed by ASCII letters, digits and
underscores. Any label can be mapped onto one, and a name that is in use is told apart
by the least numeric ending that is free. -/
namespace TypedRecords.Identifier

def isStart (c : Char) : Bool := c.isAlpha || c == '_'

def isPart (c : Char) : Bool := c.isAlphanum || c == '_'

def isValidChars : List Char → Bool
  | [] => false
  | c :: cs => isStart c && cs.all isPart

def isValid (name : String) : Bool := isValidChars name.toList

def clean (c : Char) : Char := if isPart c then c else '_'

/-- The identifier of a label. A first character that cannot start one gives way to its
successor, unless that is missing or a digit; then an underscore stands for it. -/
def sanitizeChars : List Char → List Char
  | [] => ['_']
  | c :: cs =>
    if isStart c then c :: cs.map clean
    else match cs with
      | [] => ['_']
      | d :: _ => if d.isDigit then '_' :: cs.map clean else cs.map clean

def sanitize (label : String) : String := String.ofList (sanitizeChars label.toList)

/-- The candidate number `index` for `base`: the base itself, then `base_1`, `base_2`, … -/
def suffixed (base : String) : Nat → String
  | 0 => base
  | n + 1 => base ++ "_" ++ toString (n + 1)

theorem toString_injective {m n : Nat} (h : toString m = toString n) : m = n := by
  have digits : Nat.toDigits 10 m = Nat.toDigits 10 n := by
    rw [← Nat.toList_repr, ← Nat.toList_repr, ← Nat.toString_eq_repr, ← Nat.toString_eq_repr, h]
  rw [← Nat.ofDigitChars_ten_toDigits (n := m), digits, Nat.ofDigitChars_ten_toDigits]

theorem suffixed_injective (base : String) : Function.Injective (suffixed base) := by
  have longer (n : Nat) : base ≠ suffixed base (n + 1) := by
    intro same
    have lengths := congrArg String.length same
    have one : ("_" : String).length = 1 := rfl
    simp only [suffixed, String.length_append] at lengths
    omega
  intro i j same
  match i, j with
  | 0, 0 => rfl
  | 0, n + 1 => exact absurd same (longer n)
  | n + 1, 0 => exact absurd same.symm (longer n)
  | m + 1, n + 1 => exact toString_injective ((String.append_right_inj _).1 same)

def firstFrom (stop : Nat → Bool) : (tries start : Nat) → Nat
  | 0, k => k
  | tries + 1, k => if stop k then k else firstFrom stop tries (k + 1)

structure Resolution where
  name : String
  probed : List String
  deriving Repr, DecidableEq

/-- The names in use that are none of the candidates before number `index`. -/
def unasked (candidate : String) (taken : List String) (index : Nat) : List String :=
  taken.filter fun name => ∀ j < index, suffixed candidate j ≠ name

theorem length_unasked_lt {candidate : String} {taken : List String} {index : Nat}
    (used : suffixed candidate index ∈ taken) :
    (unasked candidate taken (index + 1)).length < (unasked candidate taken index).length := by
  have fewer : unasked candidate taken (index + 1) =
      (unasked candidate taken index).filter fun name => suffixed candidate index ≠ name := by
    rw [unasked, unasked, List.filter_filter]
    refine List.filter_congr fun name _ => ?_
    rw [← Bool.decide_and, decide_eq_decide, Nat.forall_lt_succ_right, and_comm]
  have here : suffixed candidate index ∈ unasked candidate taken index := by
    simp only [unasked, List.mem_filter, decide_eq_true_eq]
    exact ⟨used, fun j below same => Nat.ne_of_lt below (suffixed_injective candidate same)⟩
  rw [fewer, List.length_filter_lt_length_iff_exists]
  exact ⟨_, here, by simp⟩

def resolveFrom (candidate : String) (taken : List String) (index : Nat) : Resolution :=
  let name := suffixed candidate index
  if taken.contains name then
    let later := resolveFrom candidate taken (index + 1)
    { later with probed := name :: later.probed }
  else { name := name, probed := [name] }
termination_by (unasked candidate taken index).length
decreasing_by exact length_unasked_lt (List.contains_iff_mem.1 ‹_›)

def resolve (candidate : String) (taken : List String) : Resolution :=
  resolveFrom candidate taken 0

end TypedRecords.Identifier
