import TypedRecords.Canonical.Names
import TypedRecords.Proofs.Equality
import TypedRecords.Proofs.Result

/-! What a full name stands for within a type.
The check of record names walks a type, skips what stands below a record that it has met
before, and enters a record under its name before its fields. It succeeds exactly if any two
records of one full name, wherever they stand, are equal. -/
namespace TypedRecords.Canonical

mutual
def nodes : Canonical → List Canonical
  | .primitive p => [.primitive p]
  | .timestampMillis => [.timestampMillis]
  | .array items props => .array items props :: nodes items
  | .record name space fields props =>
    .record name space fields props :: nodesOfFields fields
  | .union branches => .union branches :: nodesOfBranches branches

def nodesOfBranches : List Canonical → List Canonical
  | [] => []
  | c :: rest => nodes c ++ nodesOfBranches rest

def nodesOfFields : List Field → List Canonical
  | [] => []
  | ⟨_, type, _, _, _, _⟩ :: rest => nodes type ++ nodesOfFields rest
end

def fullName? : Canonical → Option String
  | .record name space _ _ => some (fullName space name)
  | _ => none

/-- Any two records of one full name among some types are equal. -/
def Agree (ds : List Canonical) : Prop :=
  ∀ a ∈ ds, ∀ b ∈ ds, a.fullName? ≠ none → a.fullName? = b.fullName? → a == b

instance (ds : List Canonical) : Decidable (Agree ds) :=
  inferInstanceAs (Decidable (∀ a ∈ ds, ∀ b ∈ ds,
    a.fullName? ≠ none → a.fullName? = b.fullName? → a == b))

def Consistent (c : Canonical) : Prop := Agree c.nodes

instance (c : Canonical) : Decidable c.Consistent := inferInstanceAs (Decidable (Agree c.nodes))

theorem Agree.of_subset {ds es : List Canonical} (h : Agree es) (within : ∀ d ∈ ds, d ∈ es) :
    Agree ds :=
  fun a ha b hb => h a (within a ha) b (within b hb)

theorem Agree.cons {c : Canonical} {ds : List Canonical} (h : Agree ds)
    (apart : ∀ d ∈ ds, d.fullName? ≠ none → c.fullName? ≠ d.fullName?) : Agree (c :: ds) := by
  intro a ha b hb named share
  rcases List.mem_cons.1 ha with rfl | mem_a <;> rcases List.mem_cons.1 hb with rfl | mem_b
  · exact eq_self _
  · exact absurd share (apart b mem_b (share ▸ named))
  · exact absurd share.symm (apart a mem_a named)
  · exact h a mem_a b mem_b named share

theorem self_mem_nodes (c : Canonical) : c ∈ c.nodes := by
  cases c <;> simp [nodes]

mutual
theorem nodes_plain (c : Canonical) : c.plain.nodes = c.nodes.map plain := by
  match c with
  | .primitive _ => simp [plain, nodes]
  | .timestampMillis => simp [plain, nodes]
  | .array items _ => simp [plain, nodes, nodes_plain items]
  | .record _ _ fields _ => simp [plain, nodes, nodesOfFields_plain fields]
  | .union branches => simp [plain, nodes, nodesOfBranches_plain branches]

theorem nodesOfBranches_plain (branches : List Canonical) :
    nodesOfBranches (plainBranches branches) = (nodesOfBranches branches).map plain := by
  match branches with
  | [] => rfl
  | c :: rest =>
    simp [plainBranches, nodesOfBranches, nodes_plain c, nodesOfBranches_plain rest]

theorem nodesOfFields_plain (fields : List Field) :
    nodesOfFields (plainFields fields) = (nodesOfFields fields).map plain := by
  match fields with
  | [] => rfl
  | ⟨_, type, _, _, _, _⟩ :: rest =>
    simp [plainFields, nodesOfFields, nodes_plain type, nodesOfFields_plain rest]
end

mutual
theorem sizeOf_le_of_mem_nodes {d : Canonical} (c : Canonical) (h : d ∈ c.nodes) :
    sizeOf d ≤ sizeOf c := by
  match c with
  | .primitive _ | .timestampMillis =>
    simp only [nodes, List.mem_singleton] at h
    exact h ▸ Nat.le_refl _
  | .array items _ =>
    rcases List.mem_cons.1 h with rfl | inside
    · exact Nat.le_refl _
    · have := sizeOf_le_of_mem_nodes items inside
      simp only [array.sizeOf_spec]
      omega
  | .record _ _ fields _ =>
    rcases List.mem_cons.1 h with rfl | inside
    · exact Nat.le_refl _
    · have := sizeOf_lt_of_mem_nodesOfFields fields inside
      simp only [record.sizeOf_spec]
      omega
  | .union branches =>
    rcases List.mem_cons.1 h with rfl | inside
    · exact Nat.le_refl _
    · have := sizeOf_lt_of_mem_nodesOfBranches branches inside
      simp only [union.sizeOf_spec]
      omega

theorem sizeOf_lt_of_mem_nodesOfBranches {d : Canonical} (branches : List Canonical)
    (h : d ∈ nodesOfBranches branches) : sizeOf d < sizeOf branches := by
  match branches with
  | [] => simp [nodesOfBranches] at h
  | c :: rest =>
    simp only [List.cons.sizeOf_spec]
    rcases List.mem_append.1 h with first | later
    · have := sizeOf_le_of_mem_nodes c first
      omega
    · have := sizeOf_lt_of_mem_nodesOfBranches rest later
      omega

theorem sizeOf_lt_of_mem_nodesOfFields {d : Canonical} (fields : List Field)
    (h : d ∈ nodesOfFields fields) : sizeOf d < sizeOf fields := by
  match fields with
  | [] => simp [nodesOfFields] at h
  | ⟨_, type, _, _, _, _⟩ :: rest =>
    simp only [List.cons.sizeOf_spec, Field.mk.sizeOf_spec]
    rcases List.mem_append.1 h with first | later
    · have := sizeOf_le_of_mem_nodes type first
      omega
    · have := sizeOf_lt_of_mem_nodesOfFields rest later
      omega
end

/-- No record has a record inside it that equals it. -/
theorem plain_ne_of_mem_nodesOfFields {d : Canonical} {name space : String}
    {fields : List Field} {props : Props} (h : d ∈ nodesOfFields fields) :
    (record name space fields props).plain ≠ d.plain := by
  intro same
  have inside : d.plain ∈ nodesOfFields (plainFields fields) := by
    rw [nodesOfFields_plain]
    exact List.mem_map_of_mem h
  have smaller := sizeOf_lt_of_mem_nodesOfFields _ inside
  rw [← same] at smaller
  simp only [plain, record.sizeOf_spec] at smaller
  omega

theorem fullName?_plain (c : Canonical) : c.plain.fullName? = c.fullName? := by
  cases c <;> rfl

theorem exists_node_of_plain_eq {c d n : Canonical} (same : c.plain = d.plain)
    (h : n ∈ c.nodes) : ∃ m ∈ d.nodes, m.plain = n.plain := by
  have mem : n.plain ∈ d.plain.nodes := by
    rw [← same, nodes_plain]
    exact List.mem_map_of_mem h
  rw [nodes_plain] at mem
  exact List.mem_map.1 mem

theorem Consistent.of_plain_eq {c d : Canonical} (same : c.plain = d.plain)
    (h : c.Consistent) : d.Consistent := by
  intro a ha b hb named share
  obtain ⟨a', ha', same_a⟩ := exists_node_of_plain_eq same.symm ha
  obtain ⟨b', hb', same_b⟩ := exists_node_of_plain_eq same.symm hb
  rw [← fullName?_plain a, ← same_a, fullName?_plain] at named share
  rw [← fullName?_plain b, ← same_b, fullName?_plain] at share
  have equal := eq_iff_plain.1 (h a' ha' b' hb' named share)
  exact eq_iff_plain.2 (same_a.symm.trans (equal.trans same_b))

/-! The check finds every conflict. -/

def Covers (seen : Definitions) (ds : List Canonical) : Prop :=
  ∀ d ∈ ds, ∀ full, d.fullName? = some full →
    ∃ known, seen.lookup full = some known ∧ known.plain = d.plain

/-- Whatever stands below an entered record is entered too, unless its fields are still
being walked. -/
def Closed (opened seen : Definitions) : Prop :=
  ∀ full known, seen.lookup full = some known → (full, known) ∉ opened →
    Covers seen known.nodes

def Apart (opened : Definitions) (ds : List Canonical) : Prop :=
  ∀ p ∈ opened, ∀ d ∈ ds, p.2.plain ≠ d.plain

/-- What a walk over some types leads to. -/
structure Walked (opened seen later : Definitions) (ds : List Canonical) : Prop where
  keeps : ∀ full known, seen.lookup full = some known → later.lookup full = some known
  closed : Closed opened later
  covers : Covers later ds

theorem Covers.mono {seen later : Definitions} {ds : List Canonical} (h : Covers seen ds)
    (keeps : ∀ full known, seen.lookup full = some known → later.lookup full = some known) :
    Covers later ds := by
  intro d hd full hf
  obtain ⟨known, entered, same⟩ := h d hd full hf
  exact ⟨known, keeps full known entered, same⟩

theorem Covers.append {seen : Definitions} {ds es : List Canonical} (hd : Covers seen ds)
    (he : Covers seen es) : Covers seen (ds ++ es) := by
  intro d h
  rcases List.mem_append.1 h with h | h
  · exact hd d h
  · exact he d h

theorem Covers.of_plain_eq {seen : Definitions} {c d : Canonical} (h : Covers seen c.nodes)
    (same : c.plain = d.plain) : Covers seen d.nodes := by
  intro n hn full hf
  obtain ⟨m, hm, equal⟩ := exists_node_of_plain_eq same.symm hn
  rw [← fullName?_plain, ← equal, fullName?_plain] at hf
  obtain ⟨known, entered, same⟩ := h m hm full hf
  exact ⟨known, entered, same.trans equal⟩

theorem Covers.cons {seen : Definitions} {c : Canonical} {ds : List Canonical}
    (h : Covers seen ds) (unnamed : c.fullName? = none) : Covers seen (c :: ds) := by
  intro d hd full hf
  rcases List.mem_cons.1 hd with rfl | hd
  · simp [unnamed] at hf
  · exact h d hd full hf

theorem Walked.refl {opened seen : Definitions} {ds : List Canonical}
    (closed : Closed opened seen) (covers : Covers seen ds) : Walked opened seen seen ds :=
  ⟨fun _ _ h => h, closed, covers⟩

theorem Walked.trans {opened seen between later : Definitions} {ds es : List Canonical}
    (first : Walked opened seen between ds) (second : Walked opened between later es) :
    Walked opened seen later (ds ++ es) :=
  ⟨fun full known h => second.keeps full known (first.keeps full known h), second.closed,
    (first.covers.mono second.keeps).append second.covers⟩

theorem lookup_cons_of_ne {key other : String} {c : Canonical} {seen : Definitions}
    (ne : other ≠ key) : List.lookup other ((key, c) :: seen) = seen.lookup other := by
  have differ : (other == key) = false := by simpa using ne
  simp [List.lookup_cons, differ]

theorem Closed.enter {opened seen : Definitions} {full : String} {c : Canonical}
    (closed : Closed opened seen) (fresh : seen.lookup full = none) :
    Closed ((full, c) :: opened) ((full, c) :: seen) := by
  intro other known entered shut
  have ne : other ≠ full := by
    rintro rfl
    rw [List.lookup_cons_self, Option.some.injEq] at entered
    exact shut (entered ▸ List.mem_cons_self)
  rw [lookup_cons_of_ne ne] at entered
  refine (closed other known entered (fun h => shut (List.mem_cons_of_mem _ h))).mono ?_
  intro name def' h
  have ne' : name ≠ full := by
    rintro rfl
    simp [fresh] at h
  rw [lookup_cons_of_ne ne', h]

theorem Walked.leave {opened seen later : Definitions} {name space : String}
    {fields : List Field} {props : Props}
    (fresh : seen.lookup (fullName space name) = none)
    (walked : Walked ((fullName space name, .record name space fields props) :: opened)
      ((fullName space name, .record name space fields props) :: seen) later
      (nodesOfFields fields)) :
    Walked opened seen later (nodes (.record name space fields props)) := by
  have own : later.lookup (fullName space name) = some (.record name space fields props) :=
    walked.keeps _ _ List.lookup_cons_self
  have covers : Covers later (nodes (.record name space fields props)) := by
    intro d hd full hf
    rcases List.mem_cons.1 hd with rfl | inside
    · cases hf
      exact ⟨_, own, rfl⟩
    · exact walked.covers d inside full hf
  refine ⟨fun other known h => ?_, fun other known entered shut => ?_, covers⟩
  · have ne : other ≠ fullName space name := by
      rintro rfl
      simp [fresh] at h
    exact walked.keeps other known (by rw [lookup_cons_of_ne ne, h])
  · by_cases same : (other, known) = (fullName space name, record name space fields props)
    · cases same
      exact covers
    · exact walked.closed other known entered (by simp [same, shut])

mutual
theorem checkNames_walked {opened seen later : Definitions} (c : Canonical)
    (run : checkNames seen c = .ok later) (closed : Closed opened seen)
    (apart : Apart opened c.nodes) : Walked opened seen later c.nodes := by
  match c with
  | .primitive _ | .timestampMillis =>
    cases run
    exact .refl closed (by simp [Covers, nodes, fullName?])
  | .array items _ =>
    have walked := checkNames_walked items (by simpa [checkNames] using run) closed
      fun p hp d hd => apart p hp d (List.mem_cons_of_mem _ hd)
    exact ⟨walked.keeps, walked.closed, walked.covers.cons rfl⟩
  | .union branches =>
    have walked := checkBranchNames_walked branches (by simpa [checkNames] using run) closed
      fun p hp d hd => apart p hp d (List.mem_cons_of_mem _ hd)
    exact ⟨walked.keeps, walked.closed, walked.covers.cons rfl⟩
  | .record name space fields props =>
    simp only [checkNames] at run
    split at run
    · rename_i known entered
      split at run
      · rename_i equal
        cases run
        have same := eq_iff_plain.1 equal
        -- The record that was met before is not open: it would lie inside an equal one.
        have shut : (fullName space name, known) ∉ opened := fun h =>
          apart _ h _ (self_mem_nodes _) same
        exact .refl closed ((closed _ known entered shut).of_plain_eq same)
      · cases run
    · rename_i fresh
      refine .leave fresh (checkFieldNames_walked fields run (closed.enter fresh) ?_)
      intro p hp d hd
      rcases List.mem_cons.1 hp with rfl | hp
      · exact plain_ne_of_mem_nodesOfFields hd
      · exact apart p hp d (List.mem_cons_of_mem _ hd)

theorem checkBranchNames_walked {opened seen later : Definitions} (branches : List Canonical)
    (run : checkBranchNames seen branches = .ok later) (closed : Closed opened seen)
    (apart : Apart opened (nodesOfBranches branches)) :
    Walked opened seen later (nodesOfBranches branches) := by
  match branches with
  | [] =>
    cases run
    exact .refl closed (by simp [Covers, nodesOfBranches])
  | c :: rest =>
    obtain ⟨between, first, second⟩ := Result.bind_eq_ok.1 run
    have walked := checkNames_walked c first closed
      fun p hp d hd => apart p hp d (List.mem_append_left _ hd)
    exact walked.trans (checkBranchNames_walked rest second walked.closed
      fun p hp d hd => apart p hp d (List.mem_append_right _ hd))

theorem checkFieldNames_walked {opened seen later : Definitions} (fields : List Field)
    (run : checkFieldNames seen fields = .ok later) (closed : Closed opened seen)
    (apart : Apart opened (nodesOfFields fields)) :
    Walked opened seen later (nodesOfFields fields) := by
  match fields with
  | [] =>
    cases run
    exact .refl closed (by simp [Covers, nodesOfFields])
  | ⟨_, type, _, _, _, _⟩ :: rest =>
    obtain ⟨between, first, second⟩ := Result.bind_eq_ok.1 run
    have walked := checkNames_walked type first closed
      fun p hp d hd => apart p hp d (List.mem_append_left _ hd)
    exact walked.trans (checkFieldNames_walked rest second walked.closed
      fun p hp d hd => apart p hp d (List.mem_append_right _ hd))
end

theorem consistent_of_checkNames {c : Canonical} {seen : Definitions}
    (run : checkNames [] c = .ok seen) : c.Consistent := by
  have closed : Closed [] [] := by simp [Closed]
  have walked := checkNames_walked c run closed (by simp [Apart])
  intro a ha b hb named share
  obtain ⟨full, hf⟩ := Option.ne_none_iff_exists'.1 named
  obtain ⟨known, entered, same_a⟩ := walked.covers a ha full hf
  obtain ⟨known', entered', same_b⟩ := walked.covers b hb full (share ▸ hf)
  cases entered.symm.trans entered'
  exact eq_iff_plain.2 (same_a.symm.trans same_b)

/-! The check finds no other conflict. -/

def EnteredFrom (ds : List Canonical) (seen : Definitions) : Prop :=
  ∀ full known, seen.lookup full = some known → known ∈ ds ∧ known.fullName? = some full

def Clash (ds : List Canonical) (full : String) : Prop :=
  ∃ a ∈ ds, ∃ b ∈ ds, a.fullName? = some full ∧ b.fullName? = some full ∧ (a == b) = false

theorem Agree.not_clash {ds : List Canonical} (agree : Agree ds) (full : String) :
    ¬ Clash ds full := by
  rintro ⟨a, ha, b, hb, named, same, differ⟩
  have equal := agree a ha b hb (by simp [named]) (named.trans same.symm)
  exact absurd equal (by simp [differ])

/-- A walk over some types ends at the last of them, or at a name that stands for two. -/
def Ends (ds : List Canonical) (walk : Result Definitions) : Prop :=
  (∃ later, walk = .ok later ∧ EnteredFrom ds later) ∨
    ∃ full, walk = .error (.format (.definedTwice full)) ∧ Clash ds full

theorem Ends.bind {ds : List Canonical} {walk : Result Definitions}
    {next : Definitions → Result Definitions} (h : Ends ds walk)
    (goesOn : ∀ later, EnteredFrom ds later → Ends ds (next later)) : Ends ds (walk >>= next) := by
  rcases h with ⟨later, rfl, entered⟩ | ⟨full, rfl, clash⟩
  · exact goesOn later entered
  · exact .inr ⟨full, rfl, clash⟩

mutual
theorem checkNames_ends {ds : List Canonical} {seen : Definitions} (c : Canonical)
    (entered : EnteredFrom ds seen) (within : ∀ d ∈ c.nodes, d ∈ ds) :
    Ends ds (checkNames seen c) := by
  match c with
  | .primitive _ | .timestampMillis => exact .inl ⟨seen, rfl, entered⟩
  | .array items _ =>
    exact checkNames_ends items entered fun d hd => within d (List.mem_cons_of_mem _ hd)
  | .union branches =>
    exact checkBranchNames_ends branches entered fun d hd => within d (List.mem_cons_of_mem _ hd)
  | .record name space fields props =>
    have own := within _ (self_mem_nodes _)
    simp only [checkNames]
    split
    · rename_i known met
      obtain ⟨mem, named⟩ := entered _ known met
      split
      · exact .inl ⟨seen, rfl, entered⟩
      · rename_i differ
        exact .inr ⟨_, rfl, known, mem, _, own, named, rfl, by simpa using differ⟩
    · refine checkFieldNames_ends fields (fun other known h => ?_)
        fun d hd => within d (List.mem_cons_of_mem _ hd)
      by_cases same : other = fullName space name
      · subst same
        rw [List.lookup_cons_self, Option.some.injEq] at h
        exact ⟨h ▸ own, h ▸ rfl⟩
      · exact entered other known (by rwa [lookup_cons_of_ne same] at h)

theorem checkBranchNames_ends {ds : List Canonical} {seen : Definitions}
    (branches : List Canonical) (entered : EnteredFrom ds seen)
    (within : ∀ d ∈ nodesOfBranches branches, d ∈ ds) :
    Ends ds (checkBranchNames seen branches) := by
  match branches with
  | [] => exact .inl ⟨seen, rfl, entered⟩
  | c :: rest =>
    have first := checkNames_ends c entered fun d hd => within d (List.mem_append_left _ hd)
    exact first.bind fun later entered =>
      checkBranchNames_ends rest entered fun d hd => within d (List.mem_append_right _ hd)

theorem checkFieldNames_ends {ds : List Canonical} {seen : Definitions} (fields : List Field)
    (entered : EnteredFrom ds seen) (within : ∀ d ∈ nodesOfFields fields, d ∈ ds) :
    Ends ds (checkFieldNames seen fields) := by
  match fields with
  | [] => exact .inl ⟨seen, rfl, entered⟩
  | ⟨_, type, _, _, _, _⟩ :: rest =>
    have first := checkNames_ends type entered fun d hd => within d (List.mem_append_left _ hd)
    exact first.bind fun later entered =>
      checkFieldNames_ends rest entered fun d hd => within d (List.mem_append_right _ hd)
end

theorem checkNames_nil_ends (c : Canonical) :
    (∃ seen, checkNames [] c = .ok seen) ∨
      ∃ full, checkNames [] c = .error (.format (.definedTwice full)) ∧ Clash c.nodes full := by
  have entered : EnteredFrom c.nodes [] := by simp [EnteredFrom]
  exact (checkNames_ends c entered fun _ hd => hd).imp_left fun ⟨seen, run, _⟩ => ⟨seen, run⟩

/-- The check succeeds exactly where no full name stands for two different records. -/
theorem checkNames_ok_iff {c : Canonical} :
    (∃ seen, checkNames [] c = .ok seen) ↔ c.Consistent := by
  constructor
  · rintro ⟨seen, run⟩
    exact consistent_of_checkNames run
  · intro consistent
    exact (checkNames_nil_ends c).resolve_right
      fun ⟨full, _, clash⟩ => Agree.not_clash consistent full clash

end TypedRecords.Canonical
