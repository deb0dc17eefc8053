import TypedRecords.Props

/-! Sorted association lists as finite maps.
Every operation is described by the look-ups it answers, and two sorted lists with the same
look-ups are the same list. So an equation between properties, or between the attributes of
an object, is settled one key at a time. -/
namespace TypedRecords.Assoc

variable {α β : Type}

theorem find?_eq_none_iff {key : String} {pairs : List (String × α)} :
    find? key pairs = none ↔ ∀ p ∈ pairs, p.1 ≠ key := by
  induction pairs with
  | nil => simp [find?]
  | cons head rest ih =>
    obtain ⟨k, v⟩ := head
    by_cases h : k = key <;> simp [find?, h, ih]

theorem mem_of_find? {key : String} {value : α} {pairs : List (String × α)}
    (h : find? key pairs = some value) : (key, value) ∈ pairs := by
  induction pairs with
  | nil => simp [find?] at h
  | cons head rest ih =>
    obtain ⟨k, v⟩ := head
    by_cases hk : k = key
    · simp only [find?, hk, if_true, Option.some.injEq] at h
      simp [hk, h]
    · simp only [find?, hk, if_false] at h
      exact List.mem_cons_of_mem _ (ih h)

theorem nodup_of_sorted {pairs : List (String × α)} (h : Sorted pairs) :
    (pairs.map Prod.fst).Nodup := by
  rw [List.Nodup, List.pairwise_map]
  refine h.imp fun {a b} lt same => ?_
  exact String.lt_irrefl b.1 (same ▸ lt)

theorem find?_of_mem_of_nodup {key : String} {value : α} {pairs : List (String × α)}
    (h : (pairs.map Prod.fst).Nodup) (mem : (key, value) ∈ pairs) :
    find? key pairs = some value := by
  induction pairs with
  | nil => simp at mem
  | cons head rest ih =>
    obtain ⟨k, v⟩ := head
    obtain ⟨fresh, nodup⟩ := List.nodup_cons.1 h
    rcases List.mem_cons.1 mem with same | later
    · cases same
      simp [find?]
    · have ne : k ≠ key := fun same => fresh (List.mem_map.2 ⟨_, later, same.symm⟩)
      simpa [find?, ne] using ih nodup later

theorem find?_append (key : String) (pairs more : List (String × α)) :
    find? key (pairs ++ more) = (find? key pairs).or (find? key more) := by
  induction pairs with
  | nil => simp [find?]
  | cons head rest ih =>
    obtain ⟨k, v⟩ := head
    by_cases h : k = key <;> simp [find?, h, ih]

theorem find?_map (f : α → β) (key : String) (pairs : List (String × α)) :
    find? key (pairs.map fun p => (p.1, f p.2)) = (find? key pairs).map f := by
  induction pairs with
  | nil => simp [find?]
  | cons head rest ih =>
    obtain ⟨k, v⟩ := head
    by_cases h : k = key <;> simp [find?, h, ih]

theorem find?_filter (keep : String → Bool) (key : String) (pairs : List (String × α)) :
    find? key (pairs.filter fun p => keep p.1) =
      if keep key then find? key pairs else none := by
  induction pairs with
  | nil => simp [find?]
  | cons head rest ih =>
    obtain ⟨k, v⟩ := head
    by_cases h : k = key
    · subst h
      by_cases hk : keep k <;> simp [find?, hk, ih]
    · by_cases hk : keep k <;> simp [find?, hk, h, ih]

theorem find?_insert (key other : String) (value : α) (pairs : List (String × α)) :
    find? other (insert key value pairs) =
      if key = other then some value else find? other pairs := by
  induction pairs with
  | nil => simp [insert, find?]
  | cons head rest ih =>
    obtain ⟨k, v⟩ := head
    simp only [insert]
    split
    · simp [find?]
    · split
      · rename_i same
        subst same
        by_cases h : k = other <;> simp [find?, h]
      · rename_i ne
        by_cases h : k = other
        · subst h
          simp [find?, Ne.symm ne]
        · simp [find?, h, ih]

theorem find?_erase (key other : String) (pairs : List (String × α)) :
    find? other (erase key pairs) = if key = other then none else find? other pairs := by
  rw [erase, find?_filter (fun k => k != key)]
  by_cases h : key = other
  · simp [h]
  · simp [h, Ne.symm h]

theorem mem_insertAll {p : String × α} {pairs new : List (String × α)}
    (h : p ∈ insertAll pairs new) : p ∈ new ∨ p ∈ pairs := by
  induction new generalizing pairs with
  | nil => exact .inr h
  | cons head rest ih =>
    rcases ih h with later | mem
    · exact .inl (List.mem_cons_of_mem _ later)
    · rcases mem_insert mem with rfl | mem
      · exact .inl List.mem_cons_self
      · exact .inr mem

theorem find?_insertAll (key : String) (pairs new : List (String × α)) :
    find? key (insertAll pairs new) = (find? key new.reverse).or (find? key pairs) := by
  induction new generalizing pairs with
  | nil => simp [insertAll, find?]
  | cons head rest ih =>
    obtain ⟨k, v⟩ := head
    have step : insertAll pairs ((k, v) :: rest) = insertAll (insert k v pairs) rest := rfl
    rw [step, ih, find?_insert, List.reverse_cons, find?_append]
    by_cases h : k = key <;> simp [find?, h]

theorem find?_reverse {key : String} {pairs : List (String × α)}
    (h : (pairs.map Prod.fst).Nodup) : find? key pairs.reverse = find? key pairs := by
  induction pairs with
  | nil => rfl
  | cons head rest ih =>
    obtain ⟨k, v⟩ := head
    obtain ⟨fresh, nodup⟩ := List.nodup_cons.1 h
    rw [List.reverse_cons, find?_append, ih nodup]
    by_cases hk : k = key
    · subst hk
      have absent : find? k rest = none :=
        find?_eq_none_iff.2 fun p hp same => fresh (List.mem_map.2 ⟨p, hp, same⟩)
      simp [find?, absent]
    · simp [find?, hk]

theorem find?_insertAll_of_nodup {key : String} {new : List (String × α)}
    (h : (new.map Prod.fst).Nodup) (pairs : List (String × α)) :
    find? key (insertAll pairs new) = (find? key new).or (find? key pairs) := by
  rw [find?_insertAll, find?_reverse h]

theorem find?_of_lt {key k : String} {v : α} {rest : List (String × α)}
    (h : Sorted ((k, v) :: rest)) (lt : key < k) : find? key ((k, v) :: rest) = none := by
  refine find?_eq_none_iff.2 fun p hp same => ?_
  rcases List.mem_cons.1 hp with rfl | later
  · exact String.lt_irrefl _ (same ▸ lt)
  · have below := (List.pairwise_cons.1 h).1 p later
    exact String.lt_irrefl _ (String.lt_trans lt (same ▸ below))

theorem ext_find? {a b : List (String × α)} (ha : Sorted a) (hb : Sorted b)
    (h : ∀ key, find? key a = find? key b) : a = b := by
  induction a generalizing b with
  | nil =>
    cases b with
    | nil => rfl
    | cons head rest => simpa [find?] using h head.1
  | cons x xs ih =>
    obtain ⟨k, v⟩ := x
    cases b with
    | nil => simpa [find?] using h k
    | cons y ys =>
      obtain ⟨l, w⟩ := y
      -- The smaller of two first keys could not be found in the other list.
      have same : k = l := by
        have notBelow : ¬ k < l := fun lt => by
          have first := h k
          rw [find?_of_lt hb lt] at first
          simp [find?] at first
        have notAbove : ¬ l < k := fun lt => by
          have first := h l
          rw [find?_of_lt ha lt] at first
          simp [find?] at first
        exact String.le_antisymm (String.not_lt.1 notAbove) (String.not_lt.1 notBelow)
      subst same
      have value : v = w := by simpa [find?] using h k
      subst value
      have tails : xs = ys := by
        refine ih (List.pairwise_cons.1 ha).2 (List.pairwise_cons.1 hb).2 fun key => ?_
        by_cases hk : k = key
        · subst hk
          have fresh := (List.nodup_cons.1 (nodup_of_sorted ha)).1
          have fresh' := (List.nodup_cons.1 (nodup_of_sorted hb)).1
          rw [find?_eq_none_iff.2 fun p hp same => fresh (List.mem_map.2 ⟨p, hp, same⟩),
            find?_eq_none_iff.2 fun p hp same => fresh' (List.mem_map.2 ⟨p, hp, same⟩)]
        · simpa [find?, hk] using h key
      rw [tails]

/-- Pairs in key order that are stored one by one in an empty list are that list. -/
theorem insertAll_nil {pairs : List (String × α)} (h : Sorted pairs) :
    insertAll [] pairs = pairs := by
  refine ext_find? (sorted_insertAll pairs List.Pairwise.nil) h fun key => ?_
  calc
    _ = (find? key pairs).or (find? key []) := find?_insertAll_of_nodup (nodup_of_sorted h) []
    _ = _ := Option.or_none

end TypedRecords.Assoc

namespace TypedRecords.Props

open Assoc

theorem ext_find? {a b : Props} (h : ∀ key, a.find? key = b.find? key) : a = b :=
  Props.ext (Assoc.ext_find? a.sorted b.sorted h)

@[simp] theorem find?_empty (key : String) : empty.find? key = none := rfl

theorem find?_insert (props : Props) (key other value : String) :
    (props.insert key value).find? other =
      if key = other then some value else props.find? other :=
  Assoc.find?_insert ..

theorem find?_erase (props : Props) (key other : String) :
    (props.erase key).find? other = if key = other then none else props.find? other :=
  Assoc.find?_erase ..

theorem find?_eq_none_iff {props : Props} {key : String} :
    props.find? key = none ↔ ∀ p ∈ props.pairs, p.1 ≠ key :=
  Assoc.find?_eq_none_iff

@[simp] theorem empty_insertAll (props : Props) : empty.insertAll props.pairs = props :=
  Props.ext (insertAll_nil props.sorted)

/-- Taking a property out and putting it back changes nothing. -/
theorem erase_insert {props : Props} {key value : String} (h : props.find? key = some value) :
    (props.erase key).insert key value = props := by
  refine ext_find? fun other => ?_
  rw [find?_insert, find?_erase]
  by_cases same : key = other
  · simp [← same, h]
  · simp [same]

theorem insert_erase {props : Props} {key : String} (value : String)
    (h : props.find? key = none) : (props.insert key value).erase key = props := by
  refine ext_find? fun other => ?_
  rw [find?_erase, find?_insert]
  by_cases same : key = other
  · simp [← same, h]
  · simp [same]

theorem insert_of_erase (props : Props) (key value : String) :
    (props.erase key).insert key value = props.insert key value := by
  refine ext_find? fun other => ?_
  rw [find?_insert, find?_erase, find?_insert]
  split <;> rfl

theorem erase_of_insert (props : Props) (key value : String) :
    (props.insert key value).erase key = props.erase key := by
  refine ext_find? fun other => ?_
  rw [find?_erase, find?_insert, find?_erase]
  split <;> rfl

theorem erase_of_find?_eq_none {props : Props} {key : String} (h : props.find? key = none) :
    props.erase key = props := by
  refine ext_find? fun other => ?_
  rw [find?_erase]
  by_cases same : key = other
  · simp [← same, h]
  · simp [same]

end TypedRecords.Props
