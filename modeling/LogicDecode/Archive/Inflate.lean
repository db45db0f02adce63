import LogicDecode.Archive.Bits

/-!
# Inflating

Compressed data is a sequence of blocks of bits. A block holds bytes as they are, or codes for bytes
and for copies of earlier output; the codes are given by the lengths of their words. Data that
breaks these rules or ends before the last block is over is corrupt. What a copy takes from before
the beginning of the output is zero.

Each word has at least one bit, so the number of bits bounds the number of steps.
-/

namespace LogicDecode

namespace Inflate

/-- A code: how many words there are of 1, 2, … 15 bits, and the symbols in the order of their
words. -/
structure Code where
  counts : List Nat
  symbols : Array Nat

namespace Code

def maxLength : Nat := 15

/-- The code in which symbol `i` has a word of the `i`-th length; words of one length go up with
their symbols, and a symbol of length 0 has none. -/
def ofLengths (lengths : List Nat) : Code :=
  let ofLength (n : Nat) : List Nat := (lengths.zipIdx.filter fun p => p.1 == n).map Prod.snd
  let groups := (List.range' 1 maxLength).map ofLength
  ⟨groups.map List.length, groups.flatten.toArray⟩

/-- The words that are left when each word of a code and its extensions are taken, none if they do
not fit. -/
def unused (c : Code) : Option Nat :=
  c.counts.foldlM (fun left n => if n ≤ 2 * left then some (2 * left - n) else none) 1

def isComplete (c : Code) : Bool := c.unused == some 0

/-- Whether a code uses up all words, or has at most one word, which is of one bit. -/
def isUsable (c : Code) : Bool :=
  c.isComplete || (c.symbols.size ≤ 1 && c.counts.head? == some c.symbols.size)

/-- Looks for the word that goes on with the bits of a reader: `word` and `first` are the word so
far and the first word of its length, `index` the number of shorter words. -/
def search (c : Code) : List Nat → (word first index : Nat) → Bits → Option (Nat × Bits)
  | [], _, _, _, _ => none
  | count :: counts, word, first, index, r => do
    let (b, r) ← r.bit?
    let word := 2 * word + b
    let first := 2 * first
    if word < first + count then
      let s ← c.symbols[index + (word - first)]?
      return (s, r)
    else search c counts word (first + count) (index + count) r

def read (c : Code) (r : Bits) : Option (Nat × Bits) := c.search c.counts 0 0 0 r

end Code

/-- What the length symbols stand for: the smallest copy lengths, with the bits that may be
added. -/
def lengthTable : Array (Nat × Nat) :=
  #[(3, 0), (4, 0), (5, 0), (6, 0), (7, 0), (8, 0), (9, 0), (10, 0), (11, 1), (13, 1), (15, 1),
    (17, 1), (19, 2), (23, 2), (27, 2), (31, 2), (35, 3), (43, 3), (51, 3), (59, 3), (67, 4),
    (83, 4), (99, 4), (115, 4), (131, 5), (163, 5), (195, 5), (227, 5), (258, 0)]

/-- What the distance symbols stand for: the smallest copy distances, with the bits that may be
added. -/
def distanceTable : Array (Nat × Nat) :=
  #[(1, 0), (2, 0), (3, 0), (4, 0), (5, 1), (7, 1), (9, 2), (13, 2), (17, 3), (25, 3), (33, 4),
    (49, 4), (65, 5), (97, 5), (129, 6), (193, 6), (257, 7), (385, 7), (513, 8), (769, 8),
    (1025, 9), (1537, 9), (2049, 10), (3073, 10), (4097, 11), (6145, 11), (8193, 12), (12289, 12),
    (16385, 13), (24577, 13)]

/-- The number that a symbol of a table stands for, together with the bits behind it. -/
def readTable (table : Array (Nat × Nat)) (symbol : Nat) (r : Bits) :
    Option (Nat × Bits) := do
  let (base, extra) ← table[symbol]?
  let (n, r) ← r.number? extra
  return (base + n, r)

/-- Copies bytes from a distance back in the output, which may be less than their number. -/
def copy (distance : Nat) : Nat → Bytes → Bytes
  | 0, out => out
  | n + 1, out =>
    let b := if distance ≤ out.size then out[out.size - distance]?.getD 0 else 0
    copy distance n (out.push b)

/-- The word lengths of the codes that need no description: of the literals, and of the
distances. -/
def fixedLengths : List Nat × List Nat :=
  (List.replicate 144 8 ++ List.replicate 112 9 ++ List.replicate 24 7 ++ List.replicate 8 8,
    List.replicate 32 5)

/-- The codes of a block. -/
structure Codes where
  literals : Code
  distances : Code

namespace Codes

/-- Reads a length and a distance behind the symbol of a length. -/
def span (c : Codes) (symbol : Nat) (r : Bits) : Option (Nat × Nat × Bits) := do
  let (length, r) ← readTable lengthTable (symbol - 257) r
  let (s, r) ← c.distances.read r
  let (distance, r) ← readTable distanceTable s r
  return (length, distance, r)

/-- Reads codes until the one that ends a block; the number bounds the steps. -/
def run (c : Codes) : Nat → Bits → Bytes → Option (Bytes × Bits)
  | 0, _, _ => none
  | n + 1, r, out => do
    let (symbol, r) ← c.literals.read r
    if symbol < 256 then run c n r (out.push symbol.toUInt8)
    else if symbol = 256 then return (out, r)
    else
      let (length, distance, r) ← c.span symbol r
      run c n r (copy distance length out)

/-- The codes that need no description. -/
def fixed : Codes := ⟨.ofLengths fixedLengths.1, .ofLengths fixedLengths.2⟩

end Codes

/-- The order in which the word lengths of the code for word lengths are given. -/
def lengthOrder : List Nat := [16, 17, 18, 0, 8, 7, 9, 6, 10, 5, 11, 4, 12, 3, 13, 2, 14, 1, 15]

/-- The word lengths of the code for word lengths, by their symbols, from those in their order. -/
def bySymbol (short : List Nat) : List Nat :=
  (List.range lengthOrder.length).map fun s =>
    match (lengthOrder.zip short).lookup s with
    | some n => n
    | none => 0

def triples : Nat → Bits → Option (List Nat × Bits)
  | 0, r => some ([], r)
  | n + 1, r => do
    let (x, r) ← r.number? 3
    let (xs, r) ← triples n r
    return (x :: xs, r)

/-- Reads word lengths, of which `found` holds those so far, last one first. Symbols above 15 repeat
the last length, or stand for several symbols without word. -/
def lengths (c : Code) (wanted : Nat) : Nat → Bits → List Nat → Option (List Nat × Bits)
  | 0, _, _ => none
  | n + 1, r, found =>
    if found.length = wanted then some (found.reverse, r)
    else if wanted < found.length then none
    else do
      let (symbol, r) ← c.read r
      if symbol < 16 then lengths c wanted n r (symbol :: found)
      else if symbol = 16 then
        let last ← found.head?
        let (k, r) ← r.number? 2
        lengths c wanted n r (List.replicate (3 + k) last ++ found)
      else if symbol = 17 then
        let (k, r) ← r.number? 3
        lengths c wanted n r (List.replicate (3 + k) 0 ++ found)
      else
        let (k, r) ← r.number? 7
        lengths c wanted n r (List.replicate (11 + k) 0 ++ found)

def description (r : Bits) : Option (Codes × Bits) := do
  let (hlit, r) ← r.number? 5
  let (hdist, r) ← r.number? 5
  let (hclen, r) ← r.number? 4
  if 29 < hlit || 29 < hdist then none
  let (short, r) ← triples (hclen + 4) r
  let c := Code.ofLengths (bySymbol short)
  if !c.isComplete then none
  let wanted := hlit + 257 + (hdist + 1)
  let (all, r) ← lengths c wanted (wanted + 1) r []
  let codes : Codes := ⟨.ofLengths (all.take (hlit + 257)), .ofLengths (all.drop (hlit + 257))⟩
  if !codes.literals.isUsable || !codes.distances.isUsable then none
  return (codes, r)

def stored (r : Bits) (out : Bytes) : Option (Bytes × Bits) := do
  let (size, r) ← r.align.number? 16
  let (inverse, r) ← r.number? 16
  let start := r.pos / 8
  if size + inverse ≠ 65535 || r.data.size < start + size then none
  return (out ++ r.data.extract start (start + size), { r with pos := r.pos + 8 * size })

def block (kind : Nat) (r : Bits) (out : Bytes) : Option (Bytes × Bits) :=
  let steps := 8 * r.data.size + 1
  if kind = 0 then stored r out
  else if kind = 1 then Codes.fixed.run steps r out
  else if kind = 2 then do
    let (codes, r) ← description r
    codes.run steps r out
  else none

/-- Reads blocks up to the last one; the number bounds the steps. -/
def blocks : Nat → Bits → Bytes → Option Bytes
  | 0, _, _ => none
  | n + 1, r, out => do
    let (last, r) ← r.bit?
    let (kind, r) ← r.number? 2
    let (out, r) ← block kind r out
    if last = 1 then return out else blocks n r out

end Inflate

/-- What compressed data stands for, none if it is corrupt. -/
def inflate (data : Bytes) : Option Bytes :=
  Inflate.blocks (8 * data.size + 1) ⟨data, 0⟩ #[]

end LogicDecode
