import TypedRecords.Instant.Text

/-! Instants that are kept.
Only the years that milliseconds are counted for can be stored. Instants come from counts
of milliseconds, which are checked, or from texts, whose years have four digits. -/
namespace TypedRecords

namespace Text

theorem foldl_decimal_lt {digits : List Char} (h : digits.all Char.isDigit = true) (n : Nat) :
    digits.foldl (fun n c => 10 * n + (c.toNat - '0'.toNat)) n < (n + 1) * tenTo digits.length := by
  induction digits generalizing n with
  | nil => simp [tenTo]
  | cons c rest ih =>
    simp only [List.all_cons, Bool.and_eq_true, Char.isDigit_iff_toNat] at h
    obtain ⟨⟨_, small⟩, others⟩ := h
    have step := ih others (10 * n + (c.toNat - '0'.toNat))
    have digit : c.toNat - '0'.toNat ≤ 9 := by
      have zero : '0'.toNat = 48 := rfl
      have nine : '9'.toNat = 57 := rfl
      omega
    have more : tenTo (rest.length + 1) = 10 * tenTo rest.length := by
      simp [tenTo, Nat.pow_succ, Nat.mul_comm]
    rw [List.foldl_cons, List.length_cons, more]
    calc
      _ < (10 * n + (c.toNat - '0'.toNat) + 1) * tenTo rest.length := step
      _ ≤ (10 * (n + 1)) * tenTo rest.length := Nat.mul_le_mul_right _ (by omega)
      _ = _ := by rw [Nat.mul_comm 10, Nat.mul_assoc]

theorem decimalValue_lt {digits : List Char} (h : digits.all Char.isDigit = true) :
    decimalValue digits < tenTo digits.length := by
  have bound := foldl_decimal_lt h 0
  simpa [decimalValue] using bound

end Text

namespace Instant

/-- Within the years that are kept. -/
def Kept (t : Instant) : Prop := firstMilli ≤ t.millis ∧ t.millis ≤ lastMilli

instance (t : Instant) : Decidable t.Kept :=
  inferInstanceAs (Decidable (firstMilli ≤ t.millis ∧ t.millis ≤ lastMilli))

@[simp] theorem millis_ofMillis (ms : Int) : (ofMillis ms).millis = ms := by
  simp only [ofMillis, millis]
  omega

theorem kept_of_ofMillis? {ms : Int} {t : Instant} (h : ofMillis? ms = some t) : t.Kept := by
  simp only [ofMillis?, Bool.and_eq_true, decide_eq_true_eq] at h
  split at h
  · cases h
    simpa [Kept]
  · cases h

theorem Kept.ofMillis? {t : Instant} (h : t.Kept) :
    ofMillis? t.millis = some (ofMillis t.millis) := by
  obtain ⟨above, below⟩ := h
  simp [Instant.ofMillis?, above, below]

theorem Kept.toInt_ofInt {t : Instant} (h : t.Kept) : (Int64.ofInt t.millis).toInt = t.millis := by
  obtain ⟨above, below⟩ := h
  unfold firstMilli at above
  unfold lastMilli at below
  exact Int64.toInt_ofInt_of_le (by omega) (by omega)

theorem readDigits_spec {count n : Nat} {cs rest : List Char}
    (h : readDigits count cs = some (n, rest)) : n < tenTo count := by
  simp only [readDigits, Bool.and_eq_true, decide_eq_true_eq] at h
  split at h
  · rename_i digits
    have bound := Text.decimalValue_lt digits.2
    rw [digits.1] at bound
    cases h
    exact bound
  · cases h

theorem all_span (p : Char → Bool) (cs : List Char) : (cs.span p).1.all p = true := by
  have loop (taken : List Char) (h : taken.all p = true) :
      (List.span.loop p cs taken).1.all p = true := by
    induction cs generalizing taken with
    | nil =>
      have done : List.span.loop p [] taken = (taken.reverse, []) := rfl
      simpa [done] using h
    | cons c rest ih =>
      have step : List.span.loop p (c :: rest) taken =
          match p c with
          | true => List.span.loop p rest (c :: taken)
          | false => (taken.reverse, c :: rest) := rfl
      cases good : p c with
      | true =>
        rw [step, good]
        exact ih _ (by simp [good, h])
      | false =>
        rw [step, good]
        simpa using h
  exact loop [] rfl

theorem readFraction_spec {n : Nat} {cs rest : List Char}
    (h : readFraction cs = some (n, rest)) : n < 1000000000 := by
  unfold readFraction at h
  split at h
  · rename_i tail
    simp only at h
    split at h
    · cases h
    · cases h
      have all : ((tail.span Char.isDigit).1.take 9).all Char.isDigit = true := by
        have whole := List.all_eq_true.1 (all_span Char.isDigit tail)
        exact List.all_eq_true.2 fun c hc => whole c (List.mem_of_mem_take hc)
      have bound := Text.decimalValue_lt all
      have few : ((tail.span Char.isDigit).1.take 9).length ≤ 9 := by
        rw [List.length_take]
        exact Nat.min_le_left _ _
      calc
        _ < tenTo ((tail.span Char.isDigit).1.take 9).length *
            tenTo (9 - ((tail.span Char.isDigit).1.take 9).length) :=
          Nat.mul_lt_mul_of_pos_right bound (tenTo_pos _)
        _ = tenTo 9 := by
          rw [tenTo, tenTo, Nat.pow_eq, Nat.pow_eq, ← Nat.pow_add, Nat.add_sub_cancel' few]
          rfl
  · cases h
    decide

theorem readOffset_spec {offset : Int} {cs rest : List Char}
    (h : readOffset cs = some (offset, rest)) : -86400 < offset ∧ offset < 86400 := by
  unfold readOffset at h
  split at h
  · cases h
  · split at h
    · cases h
      decide
    · split at h
      · simp only [Option.bind_eq_bind, Option.bind_eq_some_iff] at h
        obtain ⟨⟨hours, _⟩, -, _, -, ⟨minutes, _⟩, -, h⟩ := h
        simp only [Bool.and_eq_true, decide_eq_true_eq] at h
        split at h
        · rename_i range
          simp only [Option.pure_def, Option.some.injEq, Prod.mk.injEq] at h
          obtain ⟨rfl, -⟩ := h
          split <;> omega
        · cases h
      · cases h

theorem Date.days_bounds {d : Date} (year : 0 ≤ d.year ∧ d.year ≤ 9999)
    (month : 1 ≤ d.month ∧ d.month ≤ 12) (day : 1 ≤ d.day ∧ d.day ≤ 31) :
    -1000000 ≤ d.days ∧ d.days ≤ 3000000 := by
  simp only [Date.days]
  split <;> omega

theorem kept_of_ofText? {s : String} {t : Instant} (h : ofText? s = some t) : t.Kept := by
  unfold ofText? at h
  obtain ⟨⟨year, _⟩, yearRead, h⟩ := Option.bind_eq_some_iff.1 h
  obtain ⟨_, -, h⟩ := Option.bind_eq_some_iff.1 h
  obtain ⟨⟨month, _⟩, -, h⟩ := Option.bind_eq_some_iff.1 h
  obtain ⟨_, -, h⟩ := Option.bind_eq_some_iff.1 h
  obtain ⟨⟨day, _⟩, -, h⟩ := Option.bind_eq_some_iff.1 h
  obtain ⟨_, -, h⟩ := Option.bind_eq_some_iff.1 h
  obtain ⟨⟨hour, _⟩, -, h⟩ := Option.bind_eq_some_iff.1 h
  obtain ⟨_, -, h⟩ := Option.bind_eq_some_iff.1 h
  obtain ⟨⟨minute, _⟩, -, h⟩ := Option.bind_eq_some_iff.1 h
  obtain ⟨_, -, h⟩ := Option.bind_eq_some_iff.1 h
  obtain ⟨⟨second, _⟩, -, h⟩ := Option.bind_eq_some_iff.1 h
  obtain ⟨⟨nanos, _⟩, fraction, h⟩ := Option.bind_eq_some_iff.1 h
  obtain ⟨⟨offset, _⟩, shifted, h⟩ := Option.bind_eq_some_iff.1 h
  simp only at h
  split at h
  · rename_i known
    simp only [Bool.and_eq_true, decide_eq_true_eq] at known
    simp only [Option.pure_def, Option.some.injEq] at h
    have fewYears := readDigits_spec yearRead
    have fewNanos := readFraction_spec fraction
    have fewSeconds := readOffset_spec shifted
    have fewDays : daysInMonth year month ≤ 31 := by
      unfold daysInMonth
      split
      · split <;> omega
      · split <;> omega
    have lastYear : tenTo 4 = 10000 := rfl
    have days : -1000000 ≤ Date.days ⟨year, month, day⟩ ∧ Date.days ⟨year, month, day⟩ ≤ 3000000 := by
      refine Date.days_bounds ⟨?_, ?_⟩ ⟨?_, ?_⟩ ⟨?_, ?_⟩ <;> simp only <;> omega
    rw [← h]
    simp only [Kept, millis, firstMilli, lastMilli]
    split <;> omega
  · cases h

end Instant
end TypedRecords
