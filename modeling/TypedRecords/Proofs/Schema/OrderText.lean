import TypedRecords.Schema.OrderText
import TypedRecords.Proofs.Identifier
import TypedRecords.Proofs.Text
import Mathlib.Data.List.Dedup

/-! Reading a written logical order.
Names without commas come back from their text, and sorting items by the places of their
names brings the names into the order in which the text lists them. What the text does not list
comes last, as it was, since the sort is stable. -/
namespace TypedRecords

/-! Stable sorting. -/

section

variable {α : Type} {le : α → α → Bool}

/-- What a stable sort makes of some items: in order, and where neither of two comes before the
other, as they were. -/
structure StablySorted (le : α → α → Bool) (items sorted : List α) : Prop where
  perm : sorted.Perm items
  ascending : sorted.Pairwise fun a b => le a b
  stable : ∀ a, sorted.filter (fun b => le a b && le b a) =
    items.filter fun b => le a b && le b a

theorem stablySorted_mergeSort (trans : ∀ a b c, le a b → le b c → le a c)
    (total : ∀ a b, le a b || le b a) (items : List α) :
    StablySorted le items (items.mergeSort le) where
  perm := List.mergeSort_perm items le
  ascending := List.pairwise_mergeSort trans total items
  stable a := by
    let alike := fun b => le a b && le b a
    have level : (items.filter alike).Pairwise fun b c => le b c := by
      refine List.pairwise_of_forall_mem_list fun b hb c hc => ?_
      have hb := Bool.and_eq_true_iff.1 (List.mem_filter.1 hb).2
      have hc := Bool.and_eq_true_iff.1 (List.mem_filter.1 hc).2
      exact trans b a c hb.2 hc.1
    have kept := (List.sublist_mergeSort trans total level List.filter_sublist).filter alike
    rw [List.filter_filter] at kept
    simp only [Bool.and_self] at kept
    refine (kept.eq_of_length ?_).symm
    exact ((List.mergeSort_perm items le).filter alike).length_eq.symm

theorem stablySorted_compare {compare : α → α → Ordering} (preorder : Std.TransCmp compare)
    (items : List α) : StablySorted (fun a b => (compare a b).isLE) items
      (items.mergeSort fun a b => (compare a b).isLE) := by
  refine stablySorted_mergeSort (fun _ _ _ => Std.TransCmp.isLE_trans) (fun a b => ?_) items
  have swapped : compare b a = (compare a b).swap := Std.OrientedCmp.eq_swap
  rw [swapped]
  cases compare a b <;> rfl

theorem eq_filter_append_filter {p : α → Bool} {items : List α}
    (first : items.Pairwise fun a b => p b → p a) :
    items = items.filter p ++ items.filter fun a => !p a := by
  induction items with
  | nil => rfl
  | cons a rest ih =>
    obtain ⟨here, later⟩ := List.pairwise_cons.1 first
    cases own : p a with
    | true => simpa [own] using ih later
    | false =>
      have none_ : ∀ b ∈ rest, p b = false := fun b hb =>
        Bool.eq_false_iff.2 fun hp => by simp [here b hb hp] at own
      have whole : rest.filter (fun a => !p a) = rest :=
        List.filter_eq_self.2 fun b hb => by simp [none_ b hb]
      have empty : rest.filter p = [] :=
        List.filter_eq_nil_iff.2 fun b hb => by simp [none_ b hb]
      simp [own, whole, empty]

end

end TypedRecords

namespace TypedRecords.OrderText

variable {α : Type}

theorem split_join {names : List String} (some : names ≠ [])
    (h : ∀ name ∈ names, ',' ∉ name.toList) : split (join names) = names := by
  induction names with
  | nil => contradiction
  | cons name rest ih =>
    cases rest with
    | nil => simp [split, join, Text.parts, Text.splitChars_of_not_mem (h name (by simp))]
    | cons next later =>
      have whole : (join (name :: next :: later)).toList =
          name.toList ++ ',' :: (join (next :: later)).toList := by
        simp [join]
      have others : split (join (next :: later)) = next :: later :=
        ih (by simp) fun other hm => h other (List.mem_cons_of_mem _ hm)
      rw [split, Text.parts, whole, Text.splitChars_append (h name (by simp)), List.map_cons,
        ← Text.parts, ← split, others, String.ofList_toList]

theorem filter_split_join {names : List String} (h : ∀ name ∈ names, Identifier.isValid name) :
    (split (join names)).filter (fun name => !name.isEmpty) = names := by
  cases names with
  | nil => decide
  | cons name rest =>
    have clear : ∀ other ∈ name :: rest, ',' ∉ other.toList := fun other hm =>
      Identifier.not_mem_of_isValid (h other hm) (by decide)
    rw [split_join (by simp) clear, List.filter_eq_self]
    intro other hm
    simpa using Identifier.ne_empty_of_isValid (h other hm)

/-- Names in the order of a list: those that it lists, each where it stands last, and then the
others as they are. -/
def ranked (listed names : List String) : List String :=
  listed.dedup.filter (fun name => name ∈ names) ++ names.filter fun name => name ∉ listed

theorem place_cons (first : String) (rest : List String) (name : String) :
    place (first :: rest) name =
      if first = name ∧ name ∉ rest then 0 else place rest name + 1 := by
  have whole : (first :: rest).reverse.idxOf? name =
      (rest.reverse.idxOf? name).or (if first = name then some rest.length else none) := by
    by_cases same : first = name <;>
      simp [List.idxOf?, List.findIdx?_append, same]
  rw [place, whole, place]
  cases found : rest.reverse.idxOf? name with
  | some fromEnd =>
    obtain ⟨inside, here, -⟩ := List.idxOf?_eq_some_iff.1 found
    have listed : name ∈ rest := List.mem_reverse.1 (here ▸ List.getElem_mem inside)
    have inside : fromEnd < rest.length := by simpa using inside
    simp only [Option.some_or, List.length_cons, listed, not_true_eq_false, and_false, if_false]
    omega
  | none =>
    have fresh : name ∉ rest := fun listed =>
      List.idxOf?_eq_none_iff.1 found (List.mem_reverse.2 listed)
    by_cases same : first = name <;> simp [same, fresh]

theorem place_lt_length_iff {listed : List String} {name : String} :
    place listed name < listed.length ↔ name ∈ listed := by
  induction listed with
  | nil => simp [place]
  | cons first rest ih =>
    rw [place_cons, List.mem_cons, List.length_cons]
    split
    · rename_i last
      simp [last.1]
    · rename_i other
      rw [Nat.add_lt_add_iff_right, ih]
      constructor
      · exact .inr
      · rintro (rfl | listed)
        · simpa using other
        · exact listed

theorem place_of_not_mem {listed : List String} {name : String} (fresh : name ∉ listed) :
    place listed name = listed.length := by
  have absent : listed.reverse.idxOf? name = none :=
    List.idxOf?_eq_none_iff.2 fun mem => fresh (List.mem_reverse.1 mem)
  rw [place, absent]

theorem pairwise_place_dedup (listed : List String) :
    listed.dedup.Pairwise fun a b => place listed a < place listed b := by
  induction listed with
  | nil => exact .nil
  | cons first rest ih =>
    have later : rest.dedup.Pairwise fun a b => place (first :: rest) a < place (first :: rest) b := by
      refine ih.imp_of_mem fun {a b} ha hb lt => ?_
      have ha := List.mem_dedup.1 ha
      have hb := List.mem_dedup.1 hb
      simpa [place_cons, ha, hb] using lt
    by_cases again : first ∈ rest
    · rw [List.dedup_cons_of_mem again]
      exact later
    · rw [List.dedup_cons_of_notMem again, List.pairwise_cons]
      refine ⟨fun b hb => ?_, later⟩
      have hb := List.mem_dedup.1 hb
      simp [place_cons, again, hb]

theorem place_inj {listed : List String} {a b : String} (ha : a ∈ listed) (hb : b ∈ listed)
    (same : place listed a = place listed b) : a = b := by
  have places : (listed.dedup.map (place listed)).Nodup :=
    List.pairwise_map.2 ((pairwise_place_dedup listed).imp Nat.ne_of_lt)
  exact List.inj_on_of_nodup_map places (List.mem_dedup.2 ha) (List.mem_dedup.2 hb) same

theorem mergeSort_place (listed : List String) {names : List String} (distinct : names.Nodup) :
    names.mergeSort (fun a b => place listed a ≤ place listed b) = ranked listed names := by
  let le := fun a b => decide (place listed a ≤ place listed b)
  have sorted : StablySorted le names (names.mergeSort le) :=
    stablySorted_mergeSort (by simpa [le] using fun a b c => Nat.le_trans)
      (by simpa [le] using fun a b => Nat.le_total _ _) names
  have first : (names.mergeSort le).Pairwise fun a b =>
      decide (b ∈ listed) = true → decide (a ∈ listed) = true := by
    refine sorted.ascending.imp fun {a b} before hb => ?_
    have within := place_lt_length_iff.2 (of_decide_eq_true hb)
    exact decide_eq_true
      (place_lt_length_iff.1 (Nat.lt_of_le_of_lt (of_decide_eq_true before) within))
  -- Names that are told have places of their own, so the order alone decides.
  have told : (names.mergeSort le).filter (fun name => name ∈ listed) =
      listed.dedup.filter fun name => name ∈ names := by
    refine List.Perm.eq_of_pairwise (fun a b ha hb before after => ?_)
      (sorted.ascending.filter _) (((pairwise_place_dedup listed).filter _).imp fun lt =>
        decide_eq_true (Nat.le_of_lt lt)) ?_
    · refine place_inj ?_ ?_ (Nat.le_antisymm (of_decide_eq_true before) (of_decide_eq_true after))
      · simpa using (List.mem_filter.1 ha).2
      · exact List.mem_dedup.1 (List.mem_filter.1 hb).1
    · refine (List.perm_ext_iff_of_nodup ((sorted.perm.nodup_iff.2 distinct).filter _)
        ((List.nodup_dedup listed).filter _)).2 fun name => ?_
      simp [sorted.perm.mem_iff, and_comm]
  -- All the others share one place and stay as they were: the sort is stable.
  have untold : (names.mergeSort le).filter (fun name => name ∉ listed) =
      names.filter fun name => name ∉ listed := by
    by_cases all : ∀ name ∈ names, name ∈ listed
    · rw [List.filter_eq_nil_iff.2, List.filter_eq_nil_iff.2]
      · simpa using all
      · simpa [sorted.perm.mem_iff] using all
    · obtain ⟨last, -, fresh⟩ : ∃ name ∈ names, name ∉ listed := by simpa using all
      have alike (name : String) : (le last name && le name last) = decide (name ∉ listed) := by
        have place_last := place_of_not_mem fresh
        by_cases inside : name ∈ listed
        · have := place_lt_length_iff.2 inside
          simp [le, inside]
          omega
        · simp [le, inside, place_last, place_of_not_mem inside]
      simpa only [alike] using sorted.stable last
  calc
    names.mergeSort le = _ := eq_filter_append_filter first
    _ = ranked listed names := by
      rw [told, ranked, ← untold]
      simp

theorem ranked_of_perm {listed names : List String} (nodup : listed.Nodup)
    (perm : listed.Perm names) : ranked listed names = listed := by
  have all : ∀ name ∈ names, name ∈ listed := fun name => perm.mem_iff.2
  rw [ranked, nodup.dedup, List.filter_eq_self.2, List.filter_eq_nil_iff.2, List.append_nil]
  · simpa using all
  · simpa using fun name => perm.mem_iff.1

theorem dedup_filter (keep : String → Bool) (listed : List String) :
    (listed.filter keep).dedup = listed.dedup.filter keep := by
  induction listed with
  | nil => rfl
  | cons first rest ih =>
    by_cases again : first ∈ rest <;> cases own : keep first <;> simp_all

/-- Parts of a list that are no names do not count. -/
theorem ranked_filter {listed names : List String} {keep : String → Bool}
    (kept : ∀ name ∈ names, keep name) : ranked (listed.filter keep) names = ranked listed names := by
  simp only [ranked, dedup_filter, List.filter_filter]
  congr 1
  · refine List.filter_congr fun name _ => ?_
    by_cases own : name ∈ names <;> simp [own, kept]
  · refine List.filter_congr fun name own => ?_
    simp [kept name own]

theorem ranked_split_join {order names : List String} (valid : ∀ name ∈ names, Identifier.isValid name)
    (nodup : order.Nodup) (perm : order.Perm names) : ranked (split (join order)) names = order := by
  have kept : ∀ name ∈ names, !name.isEmpty := fun name hn => by
    simpa using Identifier.ne_empty_of_isValid (valid name hn)
  rw [← ranked_filter kept, filter_split_join fun name hn => valid name (perm.mem_iff.1 hn),
    ranked_of_perm nodup perm]

theorem arrange_perm (name : α → String) (listed : List String) (items : List α) :
    (arrange name listed items).Perm items :=
  List.mergeSort_perm items _

theorem map_arrange (name : α → String) (listed : List String) {items : List α}
    (distinct : (items.map name).Nodup) :
    (arrange name listed items).map name = ranked listed (items.map name) := by
  rw [arrange, List.map_mergeSort (s := fun a b => decide (place listed a ≤ place listed b))
    (fun _ _ _ _ => rfl), mergeSort_place listed distinct]

end TypedRecords.OrderText
