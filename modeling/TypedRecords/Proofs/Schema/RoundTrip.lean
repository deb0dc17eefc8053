import TypedRecords.Proofs.Obtainable

/-! Schemas come back from their canonical forms.
Compiling forgets nothing that a schema is compared by, unless a property of its own stands
where a label would, or a record passes for the shared one without entries. -/
namespace TypedRecords.Schema

theorem ofCanonical_compiled {s : Schema} (h : s.Obtainable) (clear : s.Recoverable)
    (strict : Bool) :
    ∃ s', ofCanonical s.compiled strict = .ok s' ∧ (s' == s) = true ∧
      (s'.compiled == s.compiled) = true := by
  obtain ⟨s', run, same⟩ := Canonical.decompile_of_plain strict s rfl h.wellFormed clear
  exact ⟨s', run, eq_iff_plain.2 same, Canonical.eq_iff_plain.2 (plain_compiled_eq same)⟩

/-- A part of a journey. Its logical order is not that of the declarations. -/
def leg : Schema :=
  .record "Leg"
    [⟨"to_", some "to", .scalar .string, false, false, some "where it ends", none, Props.empty⟩,
     ⟨"km", none, .scalar .double, true, false, none, some (.int 0), Props.ofList [("unit", "km")]⟩]
    (Props.ofList [(Canonical.orderKey, "km,to_")])

def journey : Schema :=
  .record "Journey"
    [⟨"start", none, .scalar .datetime, false, true, none, none, Props.empty⟩,
     ⟨"legs", none, .array leg true Props.empty, false, false, none, some (.arr []), Props.empty⟩,
     ⟨"best", none, leg, true, false, none, none, Props.empty⟩]
    (Props.ofList [(Canonical.orderKey, "start,legs,best"), ("owner", "none")])

theorem wellFormed_leg : leg.WellFormed := by
  have own : Arranged "Leg" leg.entries leg.props :=
    { valid := by decide
      distinct := by decide
      ordered := ⟨["km", "to_"], by decide, by decide⟩
      consistent := by decide }
  refine wellFormed_record.2 ⟨own, ?_⟩
  simp [wellFormed_scalar]

theorem wellFormed_journey : journey.WellFormed := by
  have own : Arranged "Journey" journey.entries journey.props :=
    { valid := by decide
      distinct := by decide
      ordered := ⟨["start", "legs", "best"], by decide, by decide⟩
      consistent := by decide }
  refine wellFormed_record.2 ⟨own, ?_⟩
  simp [wellFormed_scalar, wellFormed_array, wellFormed_leg]

theorem recoverable_journey : journey.Recoverable :=
  ⟨by decide, by decide⟩

theorem ofCanonical_compiled_journey :
    journey.Obtainable ∧ journey.Recoverable ∧
      ∃ s', ofCanonical journey.compiled true = .ok s' ∧ (s' == journey) = true ∧
        (s'.compiled == journey.compiled) = true :=
  ⟨obtainable_iff_wellFormed.2 wellFormed_journey, recoverable_journey,
    ofCanonical_compiled (obtainable_iff_wellFormed.2 wellFormed_journey) recoverable_journey true⟩

/-! Properties on the way. A canonical form always gives a schema again, but the properties of a
record that goes by the name of the shared one are not looked at, and a property that stands where
a label would is taken for one. -/

/-- Properties and labels come back at every level, unless there are such records or properties. -/
theorem keepsProps_ofCanonical_iff {s : Schema} (h : s.Obtainable) (strict : Bool) :
    ∃ s', ofCanonical s.compiled strict = .ok s' ∧ (s' == s.recovered) = true ∧
      (s.KeepsProps s' ↔ s.Recoverable) := by
  obtain ⟨s', run, same⟩ := Canonical.decompile_recovered strict s rfl h.wellFormed
  refine ⟨s', run, eq_iff_plain.2 same, ?_⟩
  rw [← keepsProps_recovered_iff s h.wellFormed]
  exact ⟨KeepsProps.of_plain s same, KeepsProps.of_plain s same.symm⟩

theorem keepsProps_ofCanonical_iff_journey :
    journey.Obtainable ∧ ∃ s', ofCanonical journey.compiled true = .ok s' ∧
      (s' == journey.recovered) = true ∧ (journey.KeepsProps s' ↔ journey.Recoverable) :=
  have h := obtainable_iff_wellFormed.2 wellFormed_journey
  ⟨h, keepsProps_ofCanonical_iff h true⟩

def claimed : Schema :=
  .record Canonical.emptyRecordName []
    (Props.ofList [(Canonical.orderKey, ""), ("owner", "team")])

theorem wellFormed_claimed : claimed.WellFormed := by
  have own : Arranged Canonical.emptyRecordName [] claimed.props :=
    { valid := by simp
      distinct := by simp
      ordered := ⟨[], by simp, by decide⟩
      consistent := by decide }
  exact wellFormed_record.2 ⟨own, by simp⟩

theorem exists_owner_lost :
    claimed.Obtainable ∧ claimed.props.find? "owner" = some "team" ∧
      ∃ s', ofCanonical claimed.compiled false = .ok s' ∧ s'.props.find? "owner" = none ∧
        ¬ claimed.KeepsProps s' := by
  refine ⟨obtainable_iff_wellFormed.2 wellFormed_claimed, by decide, .emptyRecord, ?_,
    by decide, fun kept => ?_⟩
  · simp [ofCanonical, claimed, compiled, compiledEntries, Canonical.decompile]
  · have same : emptyRecord.props = claimed.props := kept.1
    revert same
    decide

end TypedRecords.Schema
