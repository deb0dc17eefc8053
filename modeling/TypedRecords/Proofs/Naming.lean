import Mathlib.Computability.Language
import Mathlib.Data.Char
import Mathlib.Data.Finset.Card
import Mathlib.Order.Bounds.Basic
import TypedRecords.Proofs.Identifier

/-! Names for labels.
The identifiers are the words of a regular language. Every label is mapped into it, and exactly
the labels that lie in it stay what they are; numbered names do not leave it. A free name is found
by asking about the numbered names in turn, and there are at most as many questions in vain as
there are names in use. -/
namespace TypedRecords.Identifier

open scoped Computability

/-! The language of identifiers. -/

def oneOf (ranges : List (Char × Char)) : Language Char :=
  {word | ∃ c, word = [c] ∧ ∃ r ∈ ranges, r.1 ≤ c ∧ c ≤ r.2}

def startRanges : List (Char × Char) := [('A', 'Z'), ('a', 'z'), ('_', '_')]

def partRanges : List (Char × Char) := [('A', 'Z'), ('a', 'z'), ('0', '9'), ('_', '_')]

/-- The regular expression `[A-Za-z_][A-Za-z0-9_]*`, for whole texts. -/
def pattern : Language Char := oneOf startRanges * (oneOf partRanges)∗

theorem singleton_mem_oneOf {ranges : List (Char × Char)} {c : Char} :
    [c] ∈ oneOf ranges ↔ ∃ r ∈ ranges, r.1 ≤ c ∧ c ≤ r.2 := by
  constructor
  · rintro ⟨d, same, inside⟩
    obtain rfl := List.singleton_inj.1 same
    exact inside
  · exact fun inside => ⟨c, rfl, inside⟩

theorem mem_kstar_oneOf {ranges : List (Char × Char)} {word : List Char} :
    word ∈ (oneOf ranges)∗ ↔ ∀ c ∈ word, [c] ∈ oneOf ranges := by
  rw [Language.mem_kstar]
  constructor
  · rintro ⟨pieces, rfl, each⟩ c mem
    obtain ⟨piece, here, inside⟩ := List.mem_flatten.1 mem
    obtain ⟨d, rfl, range⟩ := each piece here
    obtain rfl := List.mem_singleton.1 inside
    exact ⟨c, rfl, range⟩
  · intro each
    refine ⟨word.map fun c => [c], ?_, fun piece mem => ?_⟩
    · rw [← List.flatMap_def, List.flatMap_singleton']
    · obtain ⟨c, inside, rfl⟩ := List.mem_map.1 mem
      exact each c inside

theorem isAlpha_iff {c : Char} : c.isAlpha = true ↔ 'A' ≤ c ∧ c ≤ 'Z' ∨ 'a' ≤ c ∧ c ≤ 'z' := by
  have ranges : c.isAlpha = (decide ('A' ≤ c ∧ c ≤ 'Z') ||
      (decide ('a' ≤ c) && decide (c ≤ 'z'))) := rfl
  rw [ranges, Bool.or_eq_true, Bool.and_eq_true, decide_eq_true_eq, decide_eq_true_eq,
    decide_eq_true_eq]

theorem isDigit_iff {c : Char} : c.isDigit = true ↔ '0' ≤ c ∧ c ≤ '9' := by
  simp [Char.isDigit, Char.le_def]

theorem eq_iff_between (c d : Char) : c = d ↔ d ≤ c ∧ c ≤ d :=
  eq_comm.trans le_antisymm_iff

theorem isStart_iff_mem_oneOf {c : Char} : isStart c = true ↔ [c] ∈ oneOf startRanges := by
  simp only [singleton_mem_oneOf, isStart, Bool.or_eq_true, beq_iff_eq, isAlpha_iff,
    eq_iff_between c '_', startRanges, List.mem_cons, List.not_mem_nil, or_false,
    exists_eq_or_imp, exists_eq_left, or_assoc]

theorem isPart_iff_mem_oneOf {c : Char} : isPart c = true ↔ [c] ∈ oneOf partRanges := by
  simp only [singleton_mem_oneOf, isPart, Char.isAlphanum, Bool.or_eq_true, beq_iff_eq,
    isAlpha_iff, isDigit_iff, eq_iff_between c '_', partRanges, List.mem_cons, List.not_mem_nil,
    or_false, exists_eq_or_imp, exists_eq_left, or_assoc]

theorem isValid_iff_mem_pattern {name : String} : isValid name = true ↔ name.toList ∈ pattern := by
  rw [pattern, Language.mem_mul]
  cases chars : name.toList with
  | nil =>
    simp only [isValid, chars, isValidChars, Bool.false_eq_true, false_iff]
    rintro ⟨first, ⟨c, rfl, -⟩, rest, -, joined⟩
    cases joined
  | cons c rest =>
    simp only [isValid, chars, isValidChars, Bool.and_eq_true, List.all_eq_true,
      isStart_iff_mem_oneOf, isPart_iff_mem_oneOf, ← mem_kstar_oneOf]
    constructor
    · rintro ⟨start, parts⟩
      exact ⟨[c], start, rest, parts, rfl⟩
    · rintro ⟨first, start, others, parts, joined⟩
      obtain ⟨d, rfl, -⟩ := id start
      cases joined
      exact ⟨start, parts⟩

/-- Labels are mapped onto identifiers, and just the identifiers are mapped onto themselves. -/
theorem sanitize_lands_on_identifiers (label : String) :
    (isValid label = true ↔ label.toList ∈ pattern) ∧
      isValid (sanitize label) = true ∧ (sanitize label = label ↔ isValid label = true) ∧
      sanitize (sanitize label) = sanitize label ∧
      ∀ base index, isValid base = true → isValid (suffixed base index) = true ∧
        sanitize (suffixed base index) = suffixed base index := by
  have lands := isValid_sanitize label
  refine ⟨isValid_iff_mem_pattern, lands, ⟨fun same => same ▸ lands, sanitize_eq_self⟩,
    sanitize_eq_self lands, fun base index valid => ?_⟩
  have numbered := isValid_suffixed valid index
  exact ⟨numbered, sanitize_eq_self numbered⟩

theorem sanitize_lands_on_identifiers_seventy :
    sanitize "70歳以上" = "_0___" ∧ "_0___".toList ∈ pattern ∧ isValid "_0___" = true ∧
      isValid (suffixed "_0___" 1) = true ∧
      sanitize (suffixed "_0___" 1) = suffixed "_0___" 1 := by
  obtain ⟨matched, -, -, -, numbered⟩ := sanitize_lands_on_identifiers "_0___"
  have valid : isValid "_0___" = true := by decide
  exact ⟨by decide +kernel, matched.1 valid, valid, numbered "_0___" 1 valid⟩

/-! The search for a free name. -/

theorem le_card_of_passed {candidate : String} {taken : List String} {k : Nat}
    (passed : ∀ j, j < k → suffixed candidate j ∈ taken) : k ≤ taken.toFinset.card := by
  have used : (Finset.range k).image (suffixed candidate) ⊆ taken.toFinset := by
    intro name mem
    obtain ⟨j, below, rfl⟩ := Finset.mem_image.1 mem
    exact List.mem_toFinset.2 (passed j (Finset.mem_range.1 below))
  calc
    k = (Finset.range k).card := (Finset.card_range k).symm
    _ = ((Finset.range k).image (suffixed candidate)).card :=
      (Finset.card_image_of_injective _ (suffixed_injective candidate)).symm
    _ ≤ taken.toFinset.card := Finset.card_le_card used

/-- The search asks about the numbered names in turn until one is free, and then ends. -/
theorem resolve_asks_in_turn (candidate : String) (taken : List String) :
    ∃ k, IsLeast {k | suffixed candidate k ∉ taken} k ∧
      (resolve candidate taken).name = suffixed candidate k ∧
      (resolve candidate taken).probed = (List.range (k + 1)).map (suffixed candidate) ∧
      (resolve candidate taken).probed.length ≤ taken.toFinset.card + 1 := by
  obtain ⟨k, free, passed, found⟩ := resolveFrom_spec candidate taken 0
  simp only [Nat.zero_add, ← List.range_eq_range'] at free passed found
  have asked : (resolve candidate taken).probed = (List.range (k + 1)).map (suffixed candidate) :=
    congrArg Resolution.probed found
  refine ⟨k, ⟨free, fun j open_ => ?_⟩, congrArg Resolution.name found, asked, ?_⟩
  · exact Nat.le_of_not_lt fun below => open_ (passed j below)
  · rw [asked, List.length_map, List.length_range]
    exact Nat.succ_le_succ (le_card_of_passed passed)

example : resolve "x" ["x", "x_3", "x_1"] = ⟨"x_2", ["x", "x_1", "x_2"]⟩ := by decide +kernel

end TypedRecords.Identifier
