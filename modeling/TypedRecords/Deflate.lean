import TypedRecords.Powers

/-! Compressed bytes in the deflate format.
A stream is a row of blocks. A block is stored as it is or is written in codes, which stand
for bytes and for repetitions of what came before. Everything is read bit by bit, the lowest
bit of a byte first. The writer only stores. -/
namespace TypedRecords.Deflate

/-- The bits that are left of the current byte and the bytes after it. -/
structure Bits where
  pending : List Bool
  rest : List UInt8

namespace Bits

def next : Bits → Option (Bool × Bits)
  | ⟨b :: pending, rest⟩ => some (b, ⟨pending, rest⟩)
  | ⟨[], byte :: rest⟩ =>
    some (byte.toNat.testBit 0, ⟨(List.range 7).map fun i => byte.toNat.testBit (i + 1), rest⟩)
  | ⟨[], []⟩ => none

def number : (width : Nat) → Bits → Option (Nat × Bits)
  | 0, bits => some (0, bits)
  | width + 1, bits => do
    let (b, bits) ← bits.next
    let (n, bits) ← number width bits
    return (b.toNat + 2 * n, bits)

def count (bits : Bits) : Nat := bits.pending.length + 8 * bits.rest.length

end Bits

inductive Tree where
  | missing
  | symbol (n : Nat)
  | fork (zero one : Tree)

namespace Tree

def insert (n code : Nat) : (length : Nat) → Tree → Option Tree
  | 0, .missing => some (.symbol n)
  | 0, _ => none
  | _ + 1, .symbol _ => none
  | length + 1, .missing => do
    let branch ← insert n code length .missing
    return if code.testBit length then .fork .missing branch else .fork branch .missing
  | length + 1, .fork zero one =>
    if code.testBit length then (insert n code length one).map (.fork zero ·)
    else (insert n code length zero).map (.fork · one)

def decode : Tree → Bits → Option (Nat × Bits)
  | .missing, _ => none
  | .symbol n, bits => some (n, bits)
  | .fork zero one, bits => do
    let (b, bits) ← bits.next
    if b then one.decode bits else zero.decode bits

def maxLength : Nat := 15

def symbolsOfLength (lengths : List Nat) (length : Nat) : List Nat :=
  (lengths.zipIdx.filter fun p => p.1 == length).map Prod.snd

/-- The canonical code for given lengths: shorter codes come first, and codes of one length
follow each other in the order of their symbols. A symbol of length zero has no code. -/
def ofLengths (lengths : List Nat) : Option Tree := do
  let (_, tree) ← (List.range maxLength).foldlM (fun (code, tree) i => do
    let symbols := symbolsOfLength lengths (i + 1)
    let tree ← symbols.zipIdx.foldlM (fun t (n, k) => insert n (code + k) (i + 1) t) tree
    return (2 * (code + symbols.length), tree)) (0, Tree.missing)
  return tree

end Tree

def lengthRange (k : Nat) : Option (Nat × Nat) :=
  if k < 8 then some (k + 3, 0)
  else if k < 28 then some ((4 + k % 4) * twoTo (k / 4 - 1) + 3, k / 4 - 1)
  else if k = 28 then some (258, 0)
  else none

def distanceRange (k : Nat) : Option (Nat × Nat) :=
  if k < 4 then some (k + 1, 0)
  else if k < 30 then some ((2 + k % 2) * twoTo (k / 2 - 1) + 1, k / 2 - 1)
  else none

def inRange (range : Option (Nat × Nat)) (bits : Bits) : Option (Nat × Bits) := do
  let (least, width) ← range
  let (n, bits) ← bits.number width
  return (least + n, bits)

/-- Repeats bytes from a distance back, which may be less than their number. -/
def repeated (out : Array UInt8) (distance : Nat) : (length : Nat) → Array UInt8
  | 0 => out
  | length + 1 => repeated (out.push (out.getD (out.size - distance) 0)) distance length

def endOfBlock : Nat := 256

def readSymbols (literals distances : Tree) : (fuel : Nat) → Array UInt8 → Bits →
    Option (Array UInt8 × Bits)
  | 0, _, _ => none
  | fuel + 1, out, bits => do
    let (n, bits) ← literals.decode bits
    if n < endOfBlock then readSymbols literals distances fuel (out.push (UInt8.ofNat n)) bits
    else if n = endOfBlock then return (out, bits)
    else
      let (length, bits) ← inRange (lengthRange (n - endOfBlock - 1)) bits
      let (k, bits) ← distances.decode bits
      let (distance, bits) ← inRange (distanceRange k) bits
      if out.size < distance then none
      else readSymbols literals distances fuel (repeated out distance length) bits

def readCoded (literals distances : Tree) (out : Array UInt8) (bits : Bits) :
    Option (Array UInt8 × Bits) :=
  readSymbols literals distances (bits.count + 1) out bits

def readStored (out : Array UInt8) (bits : Bits) : Option (Array UInt8 × Bits) :=
  match bits.rest with
  | a :: b :: c :: d :: rest =>
    let length := a.toNat + 256 * b.toNat
    let front := rest.take length
    if c.toNat = 255 - a.toNat && d.toNat = 255 - b.toNat && front.length = length then
      some (out ++ front, ⟨[], rest.drop length⟩)
    else none
  | _ => none

def fixedLiterals : List Nat :=
  List.replicate 144 8 ++ List.replicate 112 9 ++ List.replicate 24 7 ++ List.replicate 8 8

def fixedDistances : List Nat := List.replicate 30 5

def lengthOrder : List Nat := [16, 17, 18, 0, 8, 7, 9, 6, 10, 5, 11, 4, 12, 3, 13, 2, 14, 1, 15]

def readNumbers (width : Nat) : (count : Nat) → Bits → Option (List Nat × Bits)
  | 0, bits => some ([], bits)
  | count + 1, bits => do
    let (n, bits) ← bits.number width
    let (ns, bits) ← readNumbers width count bits
    return (n :: ns, bits)

/-- One length, or a row of lengths that repeats the last one or zero. -/
def readLengthRow (tree : Tree) (last : Option Nat) (bits : Bits) : Option (List Nat × Bits) := do
  let (n, bits) ← tree.decode bits
  if n < 16 then return ([n], bits)
  else if n = 16 then
    let (k, bits) ← bits.number 2
    return (List.replicate (k + 3) (← last), bits)
  else if n = 17 then
    let (k, bits) ← bits.number 3
    return (List.replicate (k + 3) 0, bits)
  else
    let (k, bits) ← bits.number 7
    return (List.replicate (k + 11) 0, bits)

def readLengths (tree : Tree) (wanted : Nat) : (fuel : Nat) → List Nat → Bits →
    Option (List Nat × Bits)
  | 0, _, _ => none
  | fuel + 1, done, bits =>
    if done.length = wanted then some (done, bits)
    else if wanted < done.length then none
    else do
      let (row, bits) ← readLengthRow tree done.getLast? bits
      readLengths tree wanted fuel (done ++ row) bits

/-- The codes of a block that brings its own. There are codes for all thirty distances at
most, while the two greatest lengths may have codes that no block can use. -/
def readCodes (bits : Bits) : Option (Tree × Tree × Bits) := do
  let (l, bits) ← bits.number 5
  let (d, bits) ← bits.number 5
  let (c, bits) ← bits.number 4
  if 29 < d then none
  else
    let (widths, bits) ← readNumbers 3 (c + 4) bits
    let widthOf := fun n => ((lengthOrder.zip widths).lookup n).getD 0
    let tree ← Tree.ofLengths ((List.range 19).map widthOf)
    let count := l + 257 + d + 1
    let (lengths, bits) ← readLengths tree count (count + 1) [] bits
    let literals ← Tree.ofLengths (lengths.take (l + 257))
    let distances ← Tree.ofLengths (lengths.drop (l + 257))
    return (literals, distances, bits)

def readBlocks : (fuel : Nat) → Array UInt8 → Bits → Option (Array UInt8)
  | 0, _, _ => none
  | fuel + 1, out, bits => do
    let (last, bits) ← bits.next
    let (form, bits) ← bits.number 2
    let (out, bits) ←
      if form = 0 then readStored out ⟨[], bits.rest⟩
      else if form = 1 then do
        readCoded (← Tree.ofLengths fixedLiterals) (← Tree.ofLengths fixedDistances) out bits
      else if form = 2 then do
        let (literals, distances, bits) ← readCodes bits
        readCoded literals distances out bits
      else none
    if last then return out else readBlocks fuel out bits

def inflate (bytes : List UInt8) : Option (List UInt8) :=
  (readBlocks (8 * bytes.length + 1) #[] ⟨[], bytes⟩).map Array.toList

def maxStored : Nat := 65535

def storedBlock (last : Bool) (bytes : List UInt8) : List UInt8 :=
  let low := UInt8.ofNat (bytes.length % 256)
  let high := UInt8.ofNat (bytes.length / 256)
  [if last then 1 else 0, low, high, 255 - low, 255 - high] ++ bytes

def storeUpTo : (count : Nat) → List UInt8 → List UInt8
  | 0, bytes => storedBlock true bytes
  | count + 1, bytes =>
    if bytes.length ≤ maxStored then storedBlock true bytes
    else storedBlock false (bytes.take maxStored) ++ storeUpTo count (bytes.drop maxStored)

def store (bytes : List UInt8) : List UInt8 := storeUpTo (bytes.length / maxStored) bytes

end TypedRecords.Deflate
