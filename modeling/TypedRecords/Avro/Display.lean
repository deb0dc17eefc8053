import TypedRecords.Avro.Datum
import TypedRecords.Decimal.Text
import TypedRecords.Text.Quoted

/-! Data as messages show them: the name of the type with the value in parentheses. -/
namespace TypedRecords.Avro.Datum

/-- From 1e-4 up to below 1e16 numbers are written positionally, others as in 1.5e-7 or 1e16.
Of two equally near numbers the greater one is written. -/
def numberLayout : Decimal.Layout := ⟨-4, 15, false, .away⟩

def shownFloat (x : Binary32) : String :=
  if x.isNaN then "NaN"
  else if x.isFinite then numberLayout.binary32 x
  else if x.isNegative then "-inf"
  else "inf"

def shownDouble (x : Binary64) : String :=
  if x.isNaN then "NaN"
  else if x.isFinite then numberLayout.binary64 x
  else if x.isNegative then "-inf"
  else "inf"

def shownList (items : List String) : String := "[" ++ ", ".intercalate items ++ "]"

def shownBytes (bs : List UInt8) : String := shownList (bs.map fun b => toString b.toNat)

def inBraces (text : String) : String := "\x7b" ++ text ++ "\x7d"

/-- The number that bytes stand for, the highest byte first, in two's complement. -/
def signedNumber (bs : List UInt8) : Int :=
  let n : Nat := bs.foldl (fun n b => 256 * n + b.toNat) 0
  if 128 ≤ (bs.headD 0).toNat then (n : Int) - twoTo (8 * bs.length) else n

def carried : Datum → List UInt8
  | .bytes bs => bs
  | .fixed bs => bs
  | _ => []

def shownDecimal (bs : List UInt8) : String :=
  "Decimal(Decimal " ++ inBraces s!" value: {signedNumber bs}, len: {bs.length} " ++ ")"

def shownDuration (months days millis : UInt32) : String :=
  "Duration(Duration "
    ++ inBraces
      s!" months: Months({months.toNat}), days: Days({days.toNat}), millis: Millis({millis.toNat}) "
    ++ ")"

mutual
def shown : Datum → String
  | .null => "Null"
  | .boolean b => if b then "Boolean(true)" else "Boolean(false)"
  | .int n => s!"Int({n.toInt})"
  | .long n => s!"Long({n.toInt})"
  | .float x => s!"Float({shownFloat x})"
  | .double x => s!"Double({shownDouble x})"
  | .bytes bs => s!"Bytes({shownBytes bs})"
  | .string s => s!"String({Text.quoted s})"
  | .temporal t n => s!"{t.title}({n.toInt})"
  | .uuid text => s!"Uuid({text})"
  | .decimal carrier => shownDecimal carrier.carried
  | .duration months days millis => shownDuration months days millis
  | .fixed bs => s!"Fixed({bs.length}, {shownBytes bs})"
  | .enum index symbol => s!"Enum({index}, {Text.quoted symbol})"
  | .array items => s!"Array({shownList (shownItems items)})"
  | .map values => "Map(" ++ inBraces (", ".intercalate (shownValues values)) ++ ")"
  | .record fields => s!"Record({shownList (shownFields fields)})"
  | .union index d => s!"Union({index}, {d.shown})"

def shownItems : List Datum → List String
  | [] => []
  | d :: rest => d.shown :: shownItems rest

def shownValues : List (String × Datum) → List String
  | [] => []
  | (key, d) :: rest => s!"{Text.quoted key}: {d.shown}" :: shownValues rest

def shownFields : List (String × Datum) → List String
  | [] => []
  | (name, d) :: rest => s!"({Text.quoted name}, {d.shown})" :: shownFields rest
end

end TypedRecords.Avro.Datum
