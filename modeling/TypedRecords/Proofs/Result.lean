import TypedRecords.Error

/-! Chains of steps that may fail.
A chain succeeds exactly if all of its steps do, and what a step keeps a whole chain of such
steps keeps. -/
namespace TypedRecords.Result

variable {ε α β σ : Type}

@[simp] theorem ok_bind (a : α) (f : α → Except ε β) : (Except.ok a >>= f) = f a := rfl

@[simp] theorem error_bind (e : ε) (f : α → Except ε β) : (Except.error e >>= f) = .error e := rfl

@[simp] theorem pure_eq_ok (a : α) : (pure a : Except ε α) = .ok a := rfl

theorem bind_eq_ok {x : Except ε α} {f : α → Except ε β} {b : β} :
    (x >>= f) = .ok b ↔ ∃ a, x = .ok a ∧ f a = .ok b := by
  cases x with
  | error e => simp
  | ok a => simp

theorem then_eq_ok {check : Except ε Unit} {x : Except ε β} {b : β} :
    (check >>= fun _ => x) = .ok b ↔ check = .ok () ∧ x = .ok b := by
  cases check with
  | error e => simp
  | ok a => simp

theorem bind_ok_eq_error {x : Except ε α} {f : α → β} {e : ε} :
    (x >>= fun a => .ok (f a)) = .error e ↔ x = .error e := by
  cases x <;> simp

/-! One of two chains checks more than the other: in its first part, later, or both. -/

section

variable {x y : Except ε α} {f g : α → Except ε β} {p q : Prop} {b : β}

theorem bind_eq_ok_and_iff (first : ∀ a, x = .ok a ↔ y = .ok a ∧ p)
    (later : ∀ a, f a = .ok b ↔ g a = .ok b ∧ q) :
    (x >>= f) = .ok b ↔ (y >>= g) = .ok b ∧ p ∧ q := by
  simp only [bind_eq_ok, first, later]
  constructor
  · rintro ⟨a, ⟨here, hp⟩, there, hq⟩
    exact ⟨⟨a, here, there⟩, hp, hq⟩
  · rintro ⟨⟨a, here, there⟩, hp, hq⟩
    exact ⟨a, ⟨here, hp⟩, there, hq⟩

theorem bind_eq_ok_and_iff_left (first : ∀ a, x = .ok a ↔ y = .ok a ∧ p) :
    (x >>= f) = .ok b ↔ (y >>= f) = .ok b ∧ p := by
  have more := bind_eq_ok_and_iff (f := f) (g := f) (b := b) (q := True) first (by simp)
  simpa using more

theorem bind_eq_ok_and_iff_right (later : ∀ a, f a = .ok b ↔ g a = .ok b ∧ q) :
    (x >>= f) = .ok b ↔ (x >>= g) = .ok b ∧ q := by
  have more := bind_eq_ok_and_iff (x := x) (y := x) (p := True) (by simp) later
  simpa using more

end

/-- What every single step keeps, a run over a list of steps keeps. -/
theorem foldlM_keeps {step : σ → α → Except ε σ} {Keeps : σ → Prop} {items : List α}
    (keeps : ∀ s s' a, a ∈ items → Keeps s → step s a = .ok s' → Keeps s')
    {start result : σ} (h : Keeps start) (run : items.foldlM step start = .ok result) :
    Keeps result := by
  induction items generalizing start with
  | nil =>
    cases run
    exact h
  | cons a rest ih =>
    rw [List.foldlM_cons, bind_eq_ok] at run
    obtain ⟨next, first, later⟩ := run
    refine ih (fun s s' b hb => keeps s s' b (List.mem_cons_of_mem _ hb)) ?_ later
    exact keeps start next a List.mem_cons_self h first

theorem mapM_eq_ok_iff {f : α → Except ε β} {items : List α} {results : List β} :
    items.mapM f = .ok results ↔ items.map f = results.map .ok := by
  induction items generalizing results with
  | nil => cases results <;> simp
  | cons a rest ih =>
    rw [List.mapM_cons, bind_eq_ok, List.map_cons]
    constructor
    · rintro ⟨b, first, run⟩
      obtain ⟨others, later, same⟩ := bind_eq_ok.1 run
      cases same
      rw [first, ih.1 later, List.map_cons]
    · intro same
      cases results with
      | nil => simp at same
      | cons b others =>
        obtain ⟨first, later⟩ := List.cons.inj same
        exact ⟨b, first, bind_eq_ok.2 ⟨others, ih.2 later, rfl⟩⟩

theorem exists_mapM_eq_ok {f : α → Except ε β} {items : List α}
    (h : ∀ a ∈ items, ∃ b, f a = .ok b) : ∃ results, items.mapM f = .ok results := by
  induction items with
  | nil => exact ⟨[], rfl⟩
  | cons a rest ih =>
    obtain ⟨⟨b, first⟩, later⟩ := List.forall_mem_cons.1 h
    obtain ⟨results, run⟩ := ih later
    exact ⟨b :: results, by simp [List.mapM_cons, first, run]⟩

theorem mapM_eq_ok_iff_getElem? {f : α → Except ε β} {items : List α} {results : List β} :
    items.mapM f = .ok results ↔ results.length = items.length ∧
      ∀ (i : Nat) a, items[i]? = some a → ∃ b, results[i]? = some b ∧ f a = .ok b := by
  rw [mapM_eq_ok_iff]
  constructor
  · intro same
    refine ⟨by simpa using (congrArg List.length same).symm, fun i a here => ?_⟩
    have place := congrArg (·[i]?) same
    simp only [List.getElem?_map, here, Option.map_some] at place
    obtain ⟨b, there, result⟩ := Option.map_eq_some_iff.1 place.symm
    exact ⟨b, there, result.symm⟩
  · rintro ⟨one, each⟩
    refine List.ext_getElem? fun i => ?_
    simp only [List.getElem?_map]
    cases here : items[i]? with
    | none =>
      have outside : results.length ≤ i := one ▸ List.getElem?_eq_none_iff.1 here
      rw [List.getElem?_eq_none outside]
      rfl
    | some a =>
      obtain ⟨b, there, result⟩ := each i a here
      simp [there, result]

/-- A run over a list fails like the first item that fails. -/
theorem mapM_eq_error_iff {f : α → Except ε β} {items : List α} {e : ε} :
    items.mapM f = .error e ↔ ∃ (i : Nat) (a : α), items[i]? = some a ∧ f a = .error e ∧
      ∀ (j : Nat) b, j < i → items[j]? = some b → ∃ c, f b = .ok c := by
  induction items with
  | nil => simp
  | cons a rest ih =>
    rw [List.mapM_cons]
    cases first : f a with
    | error e' =>
      rw [error_bind, Except.error.injEq]
      constructor
      · rintro rfl
        exact ⟨0, a, rfl, first, by simp⟩
      · rintro ⟨i, b, here, failed, before⟩
        cases i with
        | zero =>
          cases here
          exact Except.error.inj (first.symm.trans failed)
        | succ i =>
          obtain ⟨c, done⟩ := before 0 a (Nat.succ_pos i) rfl
          cases first.symm.trans done
    | ok b =>
      simp only [ok_bind, pure_eq_ok, bind_ok_eq_error, ih]
      constructor
      · rintro ⟨i, a', here, failed, before⟩
        refine ⟨i + 1, a', here, failed, fun j b' below there => ?_⟩
        cases j with
        | zero =>
          cases there
          exact ⟨b, first⟩
        | succ j => exact before j b' (Nat.lt_of_succ_lt_succ below) there
      · rintro ⟨i, a', here, failed, before⟩
        cases i with
        | zero =>
          cases here
          cases first.symm.trans failed
        | succ i =>
          exact ⟨i, a', here, failed, fun j b' below there =>
            before (j + 1) b' (Nat.succ_lt_succ below) there⟩

theorem mapM_congr {f g : α → Except ε β} {items : List α} (h : ∀ a ∈ items, f a = g a) :
    items.mapM f = items.mapM g := by
  induction items with
  | nil => rfl
  | cons a rest ih =>
    obtain ⟨first, later⟩ := List.forall_mem_cons.1 h
    rw [List.mapM_cons, List.mapM_cons, first, ih later]

end TypedRecords.Result
