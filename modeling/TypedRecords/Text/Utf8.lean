/-! Texts as bytes.
Bytes that are no text can be read all the same. Where a character begins and does not go on
as it should, a mark takes the place of what there is of it. -/
namespace TypedRecords.Text

def utf8 (s : String) : List UInt8 := s.toUTF8.toList

def ofUtf8? (bytes : List UInt8) : Option String := String.fromUTF8? ⟨bytes.toArray⟩

/-- How many bytes follow the first one of a character, and the range of the next of them. -/
def following (first : Nat) : Nat × Nat × Nat :=
  if 0xc2 ≤ first && first ≤ 0xdf then (1, 0x80, 0xbf)
  else if first == 0xe0 then (2, 0xa0, 0xbf)
  else if first == 0xed then (2, 0x80, 0x9f)
  else if 0xe1 ≤ first && first ≤ 0xef then (2, 0x80, 0xbf)
  else if first == 0xf0 then (3, 0x90, 0xbf)
  else if first == 0xf4 then (3, 0x80, 0x8f)
  else if 0xf1 ≤ first && first ≤ 0xf3 then (3, 0x80, 0xbf)
  else (0, 0, 0)

def goingOn : (count low high : Nat) → List UInt8 → Nat
  | count + 1, low, high, b :: rest =>
    if low ≤ b.toNat && b.toNat ≤ high then 1 + goingOn count 0x80 0xbf rest else 0
  | _, _, _, _ => 0

def repairedUpTo : (count : Nat) → List UInt8 → String
  | 0, _ => ""
  | _ + 1, [] => ""
  | count + 1, b :: rest =>
    let (missing, low, high) := following b.toNat
    let own := goingOn missing low high rest
    (ofUtf8? (b :: rest.take own)).getD "\uFFFD" ++ repairedUpTo count (rest.drop own)

def repaired (bytes : List UInt8) : String :=
  (ofUtf8? bytes).getD (repairedUpTo bytes.length bytes)

end TypedRecords.Text
