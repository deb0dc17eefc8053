import TypedRecords.Json.Parser
import TypedRecords.Json.Printer
import TypedRecords.Proofs.Decimal.Text
import TypedRecords.Proofs.Identifier

/-! Compact texts tell JSON values apart.
A value is told by how its text starts, where its text ends can be seen from what follows, and the
texts of strings and numbers can be read back. So no two values have one text, as long as their
numbers are finite. -/
namespace TypedRecords

namespace Text

theorem hexValue?_hexDigit (n : Nat) : hexValue? (hexDigit n) = some (n % 16) := by
  have each : ∀ m < 16, hexValue? ((Nat.toDigits 16 m).headD '0') = some m := by decide
  exact each _ (Nat.mod_lt _ (by decide))

end Text

namespace Json

/-! Strings are read back. -/

theorem readString_escape (fuel : Nat) (done : List Char) (c : Char) (rest : List Char) :
    readString (fuel + 1) done ((escape c).toList ++ rest) = readString fuel (c :: done) rest := by
  unfold escape
  split_ifs with same same same same same same same control
  iterate 7 exact by simp [readString, readEscape, beq_iff_eq.1 same]
  · have zero : Text.hexValue? '0' = some 0 := by decide
    have small : (UInt8.ofNat c.toNat).toNat = c.toNat := by
      simp
      omega
    have value : c.toNat / 16 % 16 * 16 + c.toNat % 16 = c.toNat := by omega
    have unit : readUnit ('0' :: '0' :: Text.hexDigit (c.toNat / 16) :: Text.hexDigit c.toNat ::
        rest) = some (c.toNat, rest) := by
      simp [readUnit, zero, Text.hexValue?_hexDigit, value]
    have back : readEscape ('u' :: '0' :: '0' :: Text.hexDigit (c.toNat / 16) ::
        Text.hexDigit c.toNat :: rest) = some (c, rest) := by
      have low : ¬ 55296 ≤ c.toNat := by omega
      have lower : ¬ 56320 ≤ c.toNat := by omega
      simp [readEscape, unit, low, lower]
    simp [readString, Text.hexByte, small, back]
  · simp_all [readString]

def escaped (cs : List Char) : List Char := cs.flatMap fun c => (escape c).toList

theorem toList_quote (s : String) : (quote s).toList = '"' :: (escaped s.toList ++ ['"']) := by
  have body (cs : List Char) (text : String) :
      (cs.foldl (fun text c => text ++ escape c) text).toList = text.toList ++ escaped cs := by
    induction cs generalizing text with
    | nil => simp [escaped]
    | cons c rest ih => simp [ih, escaped]
  rw [quote, String.foldl_eq_foldl_toList, String.toList_append, body]
  rfl

theorem readString_escaped (cs : List Char) {fuel : Nat} (enough : cs.length < fuel)
    (done rest : List Char) :
    readString fuel done (escaped cs ++ '"' :: rest) =
      some (String.ofList (done.reverse ++ cs), rest) := by
  induction cs generalizing fuel done with
  | nil =>
    obtain ⟨fuel, rfl⟩ := Nat.exists_eq_succ_of_ne_zero (Nat.ne_of_gt enough)
    simp [escaped, readString]
  | cons c cs ih =>
    obtain ⟨fuel, rfl⟩ := Nat.exists_eq_succ_of_ne_zero (Nat.ne_of_gt (Nat.zero_lt_of_lt enough))
    have step := ih (Nat.lt_of_succ_lt_succ enough) (c :: done)
    simp only [List.reverse_cons, List.append_assoc, List.singleton_append] at step
    rw [← step, ← readString_escape]
    simp [escaped]

/-- A quoted string is told by its text, and so is where it ends. -/
theorem quote_append_inj {a b : String} {r s : List Char}
    (same : (quote a).toList ++ r = (quote b).toList ++ s) : a = b ∧ r = s := by
  simp only [toList_quote, List.cons_append, List.append_assoc, List.cons.injEq, true_and,
    List.nil_append] at same
  have left := readString_escaped a.toList
    (Nat.lt_succ_of_le (Nat.le_max_left a.toList.length b.toList.length)) [] r
  have right := readString_escaped b.toList
    (Nat.lt_succ_of_le (Nat.le_max_right a.toList.length b.toList.length)) [] s
  rw [same, right] at left
  simpa [eq_comm] using left

/-! Numbers end where something else begins. -/

open Decimal

/-- What follows is not part of a number. -/
def Ends (r : List Char) : Prop := ∀ c ∈ r.head?, isNumeric c = false

theorem ends_nil : Ends [] := by
  simp [Ends]

theorem ends_cons {c : Char} {r : List Char} (h : isNumeric c = false) : Ends (c :: r) := by
  simpa [Ends] using h

theorem takeWhile_of_ends {a r : List Char} (numeric : ∀ c ∈ a, isNumeric c = true)
    (h : Ends r) : (a ++ r).takeWhile isNumeric = a := by
  rw [List.takeWhile_append_of_pos numeric]
  cases r with
  | nil => simp
  | cons c r => rw [List.takeWhile_cons_of_neg (by simp [h c rfl]), List.append_nil]

theorem numeric_append_inj {a b r s : List Char} (left : ∀ c ∈ a, isNumeric c = true)
    (right : ∀ c ∈ b, isNumeric c = true) (hr : Ends r) (hs : Ends s) (same : a ++ r = b ++ s) :
    a = b ∧ r = s := by
  have tokens : a = b := by rw [← takeWhile_of_ends left hr, same, takeWhile_of_ends right hs]
  subst tokens
  exact ⟨rfl, List.append_cancel_left same⟩

theorem isDigit_or_sign_of_mem_int {n : Int} {c : Char} (mem : c ∈ (toString n).toList) :
    c.isDigit = true ∨ c = '-' ∨ c = '+' :=
  isDigit_or_sign_of_mem_power n false c (by simpa using mem)

theorem int_injective {m n : Int} (same : (toString m).toList = (toString n).toList) : m = n := by
  have left := readPower_toString m false
  have right := readPower_toString n false
  simp only [Bool.false_and, Bool.false_eq_true, if_false, String.empty_append] at left right
  rw [← left, same, right]

theorem isNumeric_of_mem_int {n : Int} {c : Char} (mem : c ∈ (toString n).toList) :
    isNumeric c = true := by
  rcases isDigit_or_sign_of_mem_int mem with digit | rfl | rfl
  · exact isNumeric_of_isDigit digit
  · decide
  · decide

/-! Lists of texts between brackets. -/

section

variable {α : Type} (text : α → String) (close : Char)

def opened (items : List α) (r : List Char) : List Char :=
  (String.intercalate "," (items.map text)).toList ++ close :: r

def following (items : List α) (r : List Char) : List Char :=
  items.flatMap (fun x => ',' :: (text x).toList) ++ close :: r

theorem opened_nil (r : List Char) : opened text close [] r = close :: r := by
  simp [opened]

theorem opened_cons (x : α) (items : List α) (r : List Char) :
    opened text close (x :: items) r = (text x).toList ++ following text close items r := by
  have joined (y : α) (items : List α) :
      (String.intercalate "," ((y :: items).map text)).toList =
        (text y).toList ++ items.flatMap fun x => ',' :: (text x).toList := by
    induction items generalizing y with
    | nil => simp
    | cons z rest ih =>
      have step := ih z
      simp only [List.map_cons] at step
      simp [step]
  rw [opened, following, joined, List.append_assoc]

variable {text close}

theorem ends_following (closes : isNumeric close = false) (items : List α) (r : List Char) :
    Ends (following text close items r) := by
  cases items with
  | nil => exact ends_cons closes
  | cons x items => exact ends_cons (by decide)

def ToldItems (text : α → String) (items others : List α) : Prop :=
  ∀ x ∈ items, ∀ y ∈ others, ∀ r s, Ends r → Ends s →
    (text x).toList ++ r = (text y).toList ++ s → x = y ∧ r = s

theorem following_inj (closes : isNumeric close = false) (apart : close ≠ ',') {items others : List α}
    (told : ToldItems text items others) {r s : List Char}
    (same : following text close items r = following text close others s) :
    items = others ∧ r = s := by
  induction items generalizing others with
  | nil =>
    cases others with
    | nil => simpa [following] using same
    | cons y others => exact absurd (List.cons.inj same).1 apart
  | cons x items ih =>
    cases others with
    | nil => exact absurd (List.cons.inj same).1.symm apart
    | cons y others =>
      have next : (text x).toList ++ following text close items r =
          (text y).toList ++ following text close others s := by
        simpa [following] using same
      obtain ⟨rfl, later⟩ := told x List.mem_cons_self y List.mem_cons_self _ _
        (ends_following closes _ _) (ends_following closes _ _) next
      obtain ⟨rfl, rfl⟩ := ih (fun a ha b hb =>
        told a (List.mem_cons_of_mem _ ha) b (List.mem_cons_of_mem _ hb)) later
      exact ⟨rfl, rfl⟩

/-- A list between brackets is told by its text, if its items are and none starts like the end. -/
theorem opened_inj (closes : isNumeric close = false) (apart : close ≠ ',') {items others : List α}
    (told : ToldItems text items others)
    (starts : ∀ x ∈ items ++ others, ∃ c rest, (text x).toList = c :: rest ∧ c ≠ close)
    {r s : List Char}
    (same : opened text close items r = opened text close others s) : items = others ∧ r = s := by
  cases items with
  | nil =>
    cases others with
    | nil => simpa [opened_nil] using same
    | cons y others =>
      obtain ⟨c, rest, chars, differ⟩ := starts y (by simp)
      rw [opened_nil, opened_cons, chars] at same
      exact absurd (List.cons.inj same).1.symm differ
  | cons x items =>
    cases others with
    | nil =>
      obtain ⟨c, rest, chars, differ⟩ := starts x (by simp)
      rw [opened_nil, opened_cons, chars] at same
      exact absurd (List.cons.inj same).1 differ
    | cons y others =>
      rw [opened_cons, opened_cons] at same
      obtain ⟨rfl, rest⟩ := told x List.mem_cons_self y List.mem_cons_self _ _
        (ends_following closes _ _) (ends_following closes _ _) same
      obtain ⟨rfl, rfl⟩ := following_inj closes apart (fun a ha b hb =>
        told a (List.mem_cons_of_mem _ ha) b (List.mem_cons_of_mem _ hb)) rest
      exact ⟨rfl, rfl⟩

end

/-! Values. -/

mutual
def Finite : Json → Prop
  | .float x => x.isFinite = true
  | .arr items => FiniteItems items
  | .obj fields => FiniteFields fields
  | _ => True

def FiniteItems : List Json → Prop
  | [] => True
  | j :: rest => j.Finite ∧ FiniteItems rest

def FiniteFields : List (String × Json) → Prop
  | [] => True
  | (_, j) :: rest => j.Finite ∧ FiniteFields rest
end

theorem finiteItems_iff {items : List Json} : FiniteItems items ↔ ∀ j ∈ items, j.Finite := by
  induction items with
  | nil => simp [FiniteItems]
  | cons j rest ih => simp [FiniteItems, ih]

theorem finiteFields_iff {fields : List (String × Json)} :
    FiniteFields fields ↔ ∀ p ∈ fields, p.2.Finite := by
  induction fields with
  | nil => simp [FiniteFields]
  | cons p rest ih =>
    obtain ⟨key, j⟩ := p
    simp [FiniteFields, ih]

theorem compactItems_eq_map (items : List Json) : compactItems items = items.map compact := by
  induction items with
  | nil => rfl
  | cons j rest ih => rw [compactItems, ih, List.map_cons]

def fieldText (p : String × Json) : String := quote p.1 ++ ":" ++ p.2.compact

theorem compactFields_eq_map (fields : List (String × Json)) :
    compactFields fields = fields.map fieldText := by
  induction fields with
  | nil => rfl
  | cons p rest ih =>
    obtain ⟨key, j⟩ := p
    rw [compactFields, ih, List.map_cons, fieldText]

theorem toList_compact_arr (items : List Json) (r : List Char) :
    (compact (.arr items)).toList ++ r = '[' :: opened compact ']' items r := by
  simp [compact, compactItems_eq_map, opened]

theorem toList_compact_obj (fields : List (String × Json)) (r : List Char) :
    (compact (.obj fields)).toList ++ r = '\x7b' :: opened fieldText '\x7d' fields r := by
  simp [compact, compactFields_eq_map, opened]

inductive Start where
  | null | bool (b : Bool) | number | string | array | object
  deriving DecidableEq

def start : Json → Start
  | .null => .null
  | .bool b => .bool b
  | .int _ | .float _ => .number
  | .str _ => .string
  | .arr _ => .array
  | .obj _ => .object

def startOf (c : Char) : Option Start :=
  if c.isDigit || c == '-' then some .number
  else if c == 'n' then some .null
  else if c == 't' then some (.bool true)
  else if c == 'f' then some (.bool false)
  else if c == '"' then some .string
  else if c == '[' then some .array
  else if c == '\x7b' then some .object
  else none

theorem startOf_of_isDigit {c : Char} (h : c.isDigit = true ∨ c = '-') :
    startOf c = some .number := by
  simp [startOf, h]

theorem compact_float {x : Binary64} (h : x.isFinite = true) :
    compact (.float x) = numberLayout.binary64 x := by
  simp [compact, atom, floatText, h]

theorem exists_start {j : Json} (h : j.Finite) :
    ∃ c rest, (compact j).toList = c :: rest ∧ startOf c = some j.start := by
  cases j with
  | null => exact ⟨'n', ['u', 'l', 'l'], by simp [compact, atom], by decide⟩
  | bool b =>
    cases b with
    | true => exact ⟨'t', ['r', 'u', 'e'], by simp [compact, atom], by decide⟩
    | false => exact ⟨'f', ['a', 'l', 's', 'e'], by simp [compact, atom], by decide⟩
  | int n =>
    have digits (n : Nat) : ∃ c rest, (toString n).toList = c :: rest ∧ c.isDigit = true := by
      rw [Nat.toString_eq_repr, Nat.toList_repr]
      obtain ⟨c, rest, chars⟩ := List.exists_cons_of_ne_nil (Nat.toDigits_ne_nil (n := n) (b := 10))
      exact ⟨c, rest, chars, Text.isDigit_of_mem_toDigits (chars ▸ List.mem_cons_self)⟩
    cases n with
    | ofNat n =>
      obtain ⟨c, rest, chars, digit⟩ := digits n
      exact ⟨c, rest, chars, startOf_of_isDigit (.inl digit)⟩
    | negSucc n =>
      exact ⟨'-', (toString n.succ).toList,
        by simp [compact, atom, Int.toString_eq_repr, Int.repr], rfl⟩
  | float x =>
    obtain ⟨c, rest, chars, number⟩ := Binary64.start_text numberLayout x
    exact ⟨c, rest, by rw [compact_float h, chars], startOf_of_isDigit number⟩
  | str s =>
    exact ⟨'"', _, toList_quote s, rfl⟩
  | arr items =>
    have chars := toList_compact_arr items []
    rw [List.append_nil] at chars
    exact ⟨'[', _, chars, rfl⟩
  | obj fields =>
    have chars := toList_compact_obj fields []
    rw [List.append_nil] at chars
    exact ⟨'\x7b', _, chars, rfl⟩

/-- A value is told by its text, wherever something else follows. -/
def Told (j : Json) : Prop :=
  ∀ k : Json, j.Finite → k.Finite → ∀ r s, Ends r → Ends s →
    (compact j).toList ++ r = (compact k).toList ++ s → j = k ∧ r = s

theorem start_eq {j k : Json} (hj : j.Finite) (hk : k.Finite) {r s : List Char}
    (same : (compact j).toList ++ r = (compact k).toList ++ s) : j.start = k.start := by
  obtain ⟨c, rest, chars, one⟩ := exists_start hj
  obtain ⟨d, rest', chars', other⟩ := exists_start hk
  rw [chars, chars', List.cons_append, List.cons_append] at same
  rw [(List.cons.inj same).1, other] at one
  exact (Option.some.inj one).symm

theorem int_ne_float (n : Int) (x : Binary64) :
    (toString n).toList ≠ (numberLayout.binary64 x).toList := by
  intro same
  have plain {c : Char} (other : c.isDigit = false ∧ c ≠ '-' ∧ c ≠ '+') :
      c ∉ (toString n).toList := by
    intro mem
    rcases isDigit_or_sign_of_mem_int mem with digit | minus | plus
    · rw [other.1] at digit
      cases digit
    · exact other.2.1 minus
    · exact other.2.2 plus
  rcases Binary64.marked_text numberLayout x with mark | mark
  · exact plain (by decide) (same ▸ mark)
  · exact plain (by decide) (same ▸ mark)

theorem told_int (n : Int) : (int n).Told := by
  intro k _ hk r s hr hs same
  have kinds := start_eq (by trivial) hk same
  cases k with
  | int m =>
    obtain ⟨tokens, rfl⟩ := numeric_append_inj (fun _ => isNumeric_of_mem_int)
      (fun _ => isNumeric_of_mem_int) hr hs same
    exact ⟨congrArg int (int_injective tokens), rfl⟩
  | float x =>
    rw [compact_float hk] at same
    obtain ⟨tokens, -⟩ := numeric_append_inj (fun _ => isNumeric_of_mem_int)
      (fun _ => Binary64.isNumeric_of_mem_text) hr hs same
    exact absurd tokens (int_ne_float n x)
  | _ => cases kinds

theorem told_float (x : Binary64) : (float x).Told := by
  intro k hj hk r s hr hs same
  have kinds := start_eq hj hk same
  rw [compact_float hj] at same
  cases k with
  | int m =>
    obtain ⟨tokens, -⟩ := numeric_append_inj (fun _ => Binary64.isNumeric_of_mem_text)
      (fun _ => isNumeric_of_mem_int) hr hs same
    exact absurd tokens.symm (int_ne_float m x)
  | float y =>
    rw [compact_float hk] at same
    obtain ⟨tokens, rfl⟩ := numeric_append_inj (fun _ => Binary64.isNumeric_of_mem_text)
      (fun _ => Binary64.isNumeric_of_mem_text) hr hs same
    exact ⟨congrArg float (Binary64.text_injective numberLayout (String.toList_inj.1 tokens)), rfl⟩
  | _ => cases kinds

theorem told_str (a : String) : (str a).Told := by
  intro k _ hk r s _ _ same
  have kinds := start_eq (by trivial) hk same
  cases k with
  | str b =>
    obtain ⟨rfl, rfl⟩ := quote_append_inj same
    exact ⟨rfl, rfl⟩
  | _ => cases kinds

theorem told_arr {items : List Json} (each : ∀ j ∈ items, j.Told) : (arr items).Told := by
  intro k hj hk r s _ _ same
  have kinds := start_eq hj hk same
  cases k with
  | arr others =>
    have finite := finiteItems_iff.1 hj
    have finite' := finiteItems_iff.1 hk
    have starts : ∀ x ∈ items ++ others, ∃ c rest, (compact x).toList = c :: rest ∧ c ≠ ']' := by
      intro x mem
      obtain ⟨c, rest, chars, known⟩ := exists_start
        ((List.mem_append.1 mem).elim (finite x) (finite' x))
      refine ⟨c, rest, chars, ?_⟩
      rintro rfl
      cases known
    rw [toList_compact_arr, toList_compact_arr] at same
    obtain ⟨rfl, rfl⟩ := opened_inj (by decide) (by decide)
      (fun x hx y hy => each x hx y (finite x hx) (finite' y hy)) starts (List.cons.inj same).2
    exact ⟨rfl, rfl⟩
  | _ => cases kinds

theorem told_obj {fields : List (String × Json)} (each : ∀ p ∈ fields, p.2.Told) :
    (obj fields).Told := by
  intro k hj hk r s _ _ same
  have kinds := start_eq hj hk same
  cases k with
  | obj others =>
    have finite := finiteFields_iff.1 hj
    have finite' := finiteFields_iff.1 hk
    have told : ToldItems fieldText fields others := by
      rintro ⟨key, j⟩ hp ⟨key', j'⟩ hq r s hr hs equal
      simp only [fieldText, String.toList_append, List.append_assoc] at equal
      obtain ⟨rfl, later⟩ := quote_append_inj equal
      obtain ⟨rfl, rfl⟩ := each _ hp j' (finite _ hp) (finite' _ hq) r s hr hs
        (List.append_cancel_left later)
      exact ⟨rfl, rfl⟩
    have starts : ∀ p ∈ fields ++ others,
        ∃ c rest, (fieldText p).toList = c :: rest ∧ c ≠ '\x7d' :=
      fun p _ => ⟨'"', escaped p.1.toList ++ '"' :: ':' :: p.2.compact.toList,
        by simp [fieldText, toList_quote], by decide⟩
    rw [toList_compact_obj, toList_compact_obj] at same
    obtain ⟨rfl, rfl⟩ := opened_inj (by decide) (by decide) told starts (List.cons.inj same).2
    exact ⟨rfl, rfl⟩
  | _ => cases kinds

theorem told_null : null.Told := by
  intro k hj hk r s _ _ same
  have kinds := start_eq hj hk same
  cases k with
  | null => exact ⟨rfl, List.append_cancel_left same⟩
  | _ => cases kinds

theorem told_bool (b : Bool) : (bool b).Told := by
  intro k hj hk r s _ _ same
  have kinds := start_eq hj hk same
  cases k with
  | bool b' =>
    cases kinds
    exact ⟨rfl, List.append_cancel_left same⟩
  | _ => cases kinds

mutual
theorem told (j : Json) : j.Told := by
  match j with
  | .null => exact told_null
  | .bool b => exact told_bool b
  | .int n => exact told_int n
  | .float x => exact told_float x
  | .str s => exact told_str s
  | .arr items => exact told_arr (told_items items)
  | .obj fields => exact told_obj (told_fields fields)

theorem told_items (items : List Json) : ∀ j ∈ items, j.Told := by
  match items with
  | [] => simp
  | j :: rest => exact List.forall_mem_cons.2 ⟨told j, told_items rest⟩

theorem told_fields (fields : List (String × Json)) : ∀ p ∈ fields, p.2.Told := by
  match fields with
  | [] => simp
  | (key, j) :: rest => exact List.forall_mem_cons.2 ⟨told j, told_fields rest⟩
end

/-- No two values have one text. -/
theorem compact_injective {j k : Json} (hj : j.Finite) (hk : k.Finite)
    (same : j.compact = k.compact) : j = k :=
  (told j k hj hk [] [] ends_nil ends_nil (by rw [same])).1

end Json
end TypedRecords
