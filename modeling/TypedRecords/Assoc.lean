/-! Association lists in increasing key order.
Keys are compared by code point, which is also the order of their UTF-8 bytes. An object
of a document and the properties of a schema are both kept this way, so equal contents are
equal lists and are written in one order only. -/
namespace TypedRecords.Assoc

variable {α : Type}

def find? (key : String) : List (String × α) → Option α
  | [] => none
  | (k, v) :: rest => if k = key then some v else find? key rest

def contains (key : String) (pairs : List (String × α)) : Bool := (find? key pairs).isSome

def insert (key : String) (value : α) : List (String × α) → List (String × α)
  | [] => [(key, value)]
  | (k, v) :: rest =>
    if key < k then (key, value) :: (k, v) :: rest
    else if k = key then (key, value) :: rest
    else (k, v) :: insert key value rest

def erase (key : String) (pairs : List (String × α)) : List (String × α) :=
  pairs.filter fun p => p.1 != key

/-- Of two pairs with one key the later one stays. -/
def insertAll (pairs new : List (String × α)) : List (String × α) :=
  new.foldl (fun acc p => insert p.1 p.2 acc) pairs

def Sorted (pairs : List (String × α)) : Prop := pairs.Pairwise fun a b => a.1 < b.1

theorem mem_insert {key : String} {value : α} {pairs : List (String × α)} {p : String × α}
    (h : p ∈ insert key value pairs) : p = (key, value) ∨ p ∈ pairs := by
  induction pairs with
  | nil => simpa [insert] using h
  | cons head rest ih =>
    obtain ⟨k, v⟩ := head
    simp only [insert] at h
    split at h
    · simpa using h
    · split at h
      · rcases List.mem_cons.1 h with h | h
        · exact .inl h
        · exact .inr (List.mem_cons_of_mem _ h)
      · rcases List.mem_cons.1 h with h | h
        · exact .inr (h ▸ List.mem_cons_self)
        · exact (ih h).imp_right (List.mem_cons_of_mem _)

theorem sorted_insert (key : String) (value : α) {pairs : List (String × α)}
    (h : Sorted pairs) : Sorted (insert key value pairs) := by
  induction pairs with
  | nil => simp [insert, Sorted]
  | cons head rest ih =>
    obtain ⟨k, v⟩ := head
    obtain ⟨hk, hrest⟩ := List.pairwise_cons.1 h
    simp only [insert]
    split
    · rename_i lt
      refine List.pairwise_cons.2 ⟨fun p hp => ?_, h⟩
      rcases List.mem_cons.1 hp with rfl | hp
      · exact lt
      · exact String.lt_trans lt (hk p hp)
    · split
      · rename_i eq
        exact List.pairwise_cons.2 ⟨fun p hp => eq ▸ hk p hp, hrest⟩
      · rename_i lt ne
        refine List.pairwise_cons.2 ⟨fun p hp => ?_, ih hrest⟩
        rcases mem_insert hp with rfl | hp
        · have le : k ≤ key := String.not_lt.1 lt
          exact Classical.byContradiction fun nlt =>
            ne (String.le_antisymm le (String.not_lt.1 nlt))
        · exact hk p hp

theorem sorted_erase (key : String) {pairs : List (String × α)} (h : Sorted pairs) :
    Sorted (erase key pairs) :=
  List.Pairwise.filter _ h

theorem sorted_insertAll {pairs : List (String × α)} (new : List (String × α))
    (h : Sorted pairs) : Sorted (insertAll pairs new) := by
  induction new generalizing pairs with
  | nil => exact h
  | cons p rest ih => exact ih (sorted_insert p.1 p.2 h)

end TypedRecords.Assoc
