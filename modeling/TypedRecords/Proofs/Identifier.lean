import TypedRecords.Identifier

/-! Identifiers and numbered names.
What a label is mapped onto is an identifier, a label that is one is mapped onto itself, and
a numbered name made from an identifier is an identifier again. None of them is empty or
holds a comma or a point, so that names can be listed in a text and read back from it. The
numbered names of a base are pairwise distinct, so one of them is always free. -/
namespace TypedRecords.Identifier

theorem isPart_of_isStart {c : Char} (h : isStart c = true) : isPart c = true := by
  simp only [isStart, isPart, Char.isAlphanum, Bool.or_eq_true] at h ⊢
  rcases h with h | h
  · exact .inl (.inl h)
  · exact .inr h

theorem isPart_clean (c : Char) : isPart (clean c) = true := by
  unfold clean
  split
  · assumption
  · decide

theorem clean_eq_self {c : Char} (h : isPart c = true) : clean c = c := by
  simp [clean, h]

theorem isStart_of_isPart {c : Char} (h : isPart c = true) (noDigit : c.isDigit = false) :
    isStart c = true := by
  simpa [isPart, isStart, Char.isAlphanum, noDigit] using h

theorem isStart_clean {c : Char} (h : c.isDigit = false) : isStart (clean c) = true := by
  unfold clean
  split
  · exact isStart_of_isPart ‹_› h
  · decide

theorem isValidChars_sanitizeChars (cs : List Char) : isValidChars (sanitizeChars cs) = true := by
  match cs with
  | [] => decide
  | c :: cs =>
    by_cases start : isStart c = true
    · simp [sanitizeChars, isValidChars, start, isPart_clean]
    · match cs with
      | [] =>
        have underscore : isStart '_' = true := by decide
        simp [sanitizeChars, isValidChars, start, underscore]
      | d :: rest =>
        by_cases digit : d.isDigit = true
        · have underscore : isStart '_' = true := by decide
          simp [sanitizeChars, isValidChars, start, digit, underscore, isPart_clean]
        · have first := isStart_clean (Bool.not_eq_true _ ▸ digit)
          simp [sanitizeChars, isValidChars, start, digit, first, isPart_clean]

theorem sanitizeChars_eq_self {cs : List Char} (h : isValidChars cs = true) :
    sanitizeChars cs = cs := by
  cases cs with
  | nil => simp [isValidChars] at h
  | cons c cs =>
    simp only [isValidChars, Bool.and_eq_true, List.all_eq_true] at h
    have tail : cs.map clean = cs := by
      conv => rhs; rw [← List.map_id cs]
      exact List.map_congr_left fun d hd => clean_eq_self (h.2 d hd)
    simp [sanitizeChars, h.1, tail]

theorem isValid_sanitize (label : String) : isValid (sanitize label) = true := by
  simp [isValid, sanitize, isValidChars_sanitizeChars]

theorem sanitize_eq_self {name : String} (h : isValid name = true) : sanitize name = name := by
  rw [sanitize, sanitizeChars_eq_self h, String.ofList_toList]

theorem ne_empty_of_isValid {name : String} (h : isValid name = true) : name ≠ "" := by
  rintro rfl
  exact absurd h (by decide)

theorem isPart_of_mem {name : String} (h : isValid name = true) {c : Char}
    (mem : c ∈ name.toList) : isPart c = true := by
  cases chars : name.toList with
  | nil => simp [chars] at mem
  | cons d rest =>
    simp only [isValid, chars, isValidChars, Bool.and_eq_true, List.all_eq_true] at h
    rw [chars] at mem
    rcases List.mem_cons.1 mem with rfl | later
    · exact isPart_of_isStart h.1
    · exact h.2 c later

theorem not_mem_of_isValid {name : String} (h : isValid name = true) {c : Char}
    (other : isPart c = false) : c ∉ name.toList := fun mem => by
  simp [isPart_of_mem h mem] at other

theorem isPart_of_isDigit {c : Char} (h : c.isDigit = true) : isPart c = true := by
  simp [isPart, Char.isAlphanum, h]

theorem isPart_of_mem_number {n : Nat} {c : Char} (h : c ∈ (toString n).toList) :
    isPart c = true := by
  have digits : c ∈ Nat.toDigits 10 n := by simpa [Nat.toString_eq_repr, Nat.repr] using h
  exact isPart_of_isDigit (Nat.isDigit_of_mem_toDigits (by decide) (by decide) digits)

theorem isValid_append {name more : String} (h : isValid name = true)
    (parts : ∀ c ∈ more.toList, isPart c = true) : isValid (name ++ more) = true := by
  cases chars : name.toList with
  | nil => simp [isValid, chars, isValidChars] at h
  | cons c rest =>
    simp only [isValid, chars, isValidChars, Bool.and_eq_true, List.all_eq_true] at h
    simp only [isValid, String.toList_append, chars, List.cons_append, isValidChars,
      Bool.and_eq_true, List.all_eq_true]
    refine ⟨h.1, fun d hd => ?_⟩
    rcases List.mem_append.1 hd with hd | hd
    · exact h.2 d hd
    · exact parts d hd

theorem isValid_suffixed {base : String} (h : isValid base = true) (index : Nat) :
    isValid (suffixed base index) = true := by
  cases index with
  | zero => exact h
  | succ n =>
    have underscore : ∀ c ∈ ("_" : String).toList, isPart c = true := by
      intro c hc
      rw [List.mem_singleton.1 (show c ∈ ['_'] from hc)]
      decide
    exact isValid_append (isValid_append h underscore) fun c hc => isPart_of_mem_number hc

theorem firstFrom_spec {stop : Nat → Bool} {tries start k : Nat} (reached : start ≤ k)
    (within : k ≤ start + tries) (found : stop k = true) :
    stop (firstFrom stop tries start) = true ∧ firstFrom stop tries start ≤ k ∧
      ∀ j, start ≤ j → j < firstFrom stop tries start → stop j = false := by
  induction tries generalizing start with
  | zero =>
    obtain rfl : k = start := by omega
    exact ⟨found, Nat.le_refl _, fun j hj lt => absurd hj (Nat.not_le.2 lt)⟩
  | succ tries ih =>
    rw [firstFrom]
    split
    · rename_i here
      exact ⟨here, reached, fun j hj lt => absurd hj (Nat.not_le.2 lt)⟩
    · rename_i passed
      have other : start ≠ k := fun same => passed (same ▸ found)
      have reached' : start + 1 ≤ k := by omega
      obtain ⟨stops, least, before⟩ := ih reached' (by omega)
      refine ⟨stops, least, fun j hj lt => ?_⟩
      rcases Nat.eq_or_lt_of_le hj with rfl | later
      · simpa using passed
      · exact before j later lt

theorem exists_suffixed_not_mem (base : String) (taken : List String) :
    ∃ k, k ≤ taken.length ∧ suffixed base k ∉ taken := by
  apply Classical.byContradiction
  intro none_
  let names := (List.range (taken.length + 1)).map (suffixed base)
  have used : names ⊆ taken := by
    intro name hn
    obtain ⟨k, hk, rfl⟩ := List.mem_map.1 hn
    have small : k ≤ taken.length := Nat.lt_succ_iff.1 (List.mem_range.1 hk)
    exact Classical.byContradiction fun free => none_ ⟨k, small, free⟩
  have distinct : names.Nodup := List.pairwise_map.2
    (List.nodup_range.imp fun differ same => differ (suffixed_injective base same))
  have few := distinct.length_le_of_subset used
  simp only [names, List.length_map, List.length_range] at few
  omega

/-! The search for a free name. -/

section

variable {candidate : String} {taken : List String} {index : Nat}

theorem resolveFrom_of_not_mem (free : suffixed candidate index ∉ taken) :
    resolveFrom candidate taken index =
      { name := suffixed candidate index, probed := [suffixed candidate index] } := by
  rw [resolveFrom]
  simp [free]

theorem resolveFrom_of_mem (used : suffixed candidate index ∈ taken) :
    resolveFrom candidate taken index =
      { name := (resolveFrom candidate taken (index + 1)).name
        probed := suffixed candidate index :: (resolveFrom candidate taken (index + 1)).probed } := by
  rw [resolveFrom]
  simp [used]

end

/-- From a number on, the search passes over the names that are in use and asks about every one of
them once. -/
theorem resolveFrom_spec (candidate : String) (taken : List String) (index : Nat) :
    ∃ n, suffixed candidate (index + n) ∉ taken ∧
      (∀ j, j < n → suffixed candidate (index + j) ∈ taken) ∧
      resolveFrom candidate taken index =
        { name := suffixed candidate (index + n)
          probed := (List.range' index (n + 1)).map (suffixed candidate) } := by
  induction index using resolveFrom.induct candidate taken with
  | case1 index name used ih =>
    have used : suffixed candidate index ∈ taken := List.contains_iff_mem.1 used
    obtain ⟨n, free, before, found⟩ := ih
    have shift (j : Nat) : index + 1 + j = index + (j + 1) := by omega
    rw [shift] at free found
    refine ⟨n + 1, free, fun j below => ?_, ?_⟩
    · cases j with
      | zero => exact used
      | succ j => exact shift j ▸ before j (Nat.lt_of_succ_lt_succ below)
    · rw [resolveFrom_of_mem used, found]
      rfl
  | case2 index name unused =>
    have free : suffixed candidate index ∉ taken := fun used =>
      unused (List.contains_iff_mem.2 used)
    exact ⟨0, free, by simp, resolveFrom_of_not_mem free⟩

/-- The search for a free name ends at the least number whose name is free. -/
theorem resolve_spec (candidate : String) (taken : List String) :
    ∃ k, (resolve candidate taken).name = suffixed candidate k ∧ suffixed candidate k ∉ taken ∧
      ∀ j, j < k → suffixed candidate j ∈ taken := by
  obtain ⟨k, free, before, found⟩ := resolveFrom_spec candidate taken 0
  simp only [Nat.zero_add] at free before found
  exact ⟨k, by rw [resolve, found], free, before⟩

theorem isValid_resolve {candidate : String} (h : isValid candidate = true)
    (taken : List String) : isValid (resolve candidate taken).name = true := by
  obtain ⟨k, found, -, -⟩ := resolve_spec candidate taken
  rw [found]
  exact isValid_suffixed h k

end TypedRecords.Identifier
