import LogicDecode.Archive.Inflate

/-!
# Inflating with a far window

The second way to deflate: copies reach back 65536 bytes, and the last length symbol has 16 bits
added. `inflate64` is more lenient than `inflate`: where the data ends counts for nothing, and a
code need not use up all words. A word that no symbol has is corrupt, and so is a code in which a
long word goes on from the word of another symbol.
-/

namespace LogicDecode

namespace Inflate64

/-- Why reading stops: the data ends, or it is corrupt. -/
inductive Stop where
  | ended
  | corrupt
deriving Repr, DecidableEq

/-- The bits that are left, and the output so far. -/
structure State where
  bits : Bits
  out : Bytes

/-- Steps of reading; the output up to where one stops is kept. -/
abbrev Reader := ExceptT Stop (StateM State)

/-- Reads as a reader of bits does; where that one finds nothing the data ends. -/
def reading {α : Type} (read : Bits → Option (α × Bits)) : Reader α := do
  let s ← get
  match read s.bits with
  | some (x, r) =>
    set { s with bits := r }
    return x
  | none => throw .ended

def number (width : Nat) : Reader Nat := reading (Bits.number? width)

def require (ok : Bool) : Reader Unit := if ok then pure () else throw .corrupt

def write (f : Bytes → Bytes) : Reader Unit := modify fun s => { s with out := f s.out }

/-- Words as ways down to their symbols. Symbol 0 also stands where no word leads. -/
inductive Tree where
  | leaf (symbol : Nat)
  | node (zero one : Tree)
deriving Repr

namespace Tree

def symbol : Tree → List Bool → Nat
  | leaf s, _ => s
  | node .., [] => 0
  | node zero _, false :: bits => zero.symbol bits
  | node _ one, true :: bits => one.symbol bits

/-- The two ways on. In the upper part of a tree, which has some depth, a word may be cut in two; in
the lower part only what is free. -/
def ways? (depth : Nat) : Tree → Option (Tree × Tree)
  | node zero one => some (zero, one)
  | leaf s => if depth = 0 && s != 0 then none else some (leaf s, leaf s)

/-- Adds a symbol at the end of a word, in place of what is there. -/
def insert? (symbol : Nat) : (depth : Nat) → (word : List Bool) → Tree → Option Tree
  | _, [], _ => some (leaf symbol)
  | depth, bit :: word, t => do
    let (zero, one) ← t.ways? depth
    if bit then return node zero (← insert? symbol (depth - 1) word one)
    else return node (← insert? symbol (depth - 1) word zero) one

end Tree

/-- A code: the lengths of the words by their symbols, and the words. -/
structure Code where
  lengths : Array Nat
  tree : Tree

namespace Code

/-- The first word of some length, as a number: it follows the words that are one bit shorter. -/
def firstWord (lengths : List Nat) : (length : Nat) → Nat
  | 0 => 0
  | n + 1 => 2 * (firstWord lengths n + if n = 0 then 0 else lengths.count n)

/-- The word of some length that stands for a number; of too large a number the low bits count. -/
def word (length n : Nat) : List Bool := (List.range length).reverse.map n.testBit

/-- Adds words for symbols to a tree whose upper part has some depth; `next` holds the next word of
each length. -/
def grow? (depth : Nat) : List (Nat × Nat) → (next : Array Nat) → Tree → Option Tree
  | [], _, t => some t
  | (0, _) :: rest, next, t => grow? depth rest next t
  | (n, symbol) :: rest, next, t => do
    let t ← t.insert? symbol depth (word n (next[n]?.getD 0))
    grow? depth rest (next.modify n (· + 1)) t

/-- The code in which symbol `i` has a word of the `i`-th length, and a symbol of length 0 has none,
with a tree whose upper part has some depth. -/
def ofLengths? (depth : Nat) (lengths : List Nat) : Option Code := do
  let next := (List.range 16).map (firstWord lengths)
  let tree ← grow? depth lengths.zipIdx next.toArray (.leaf 0)
  return ⟨lengths.toArray, tree⟩

def read (c : Code) : Reader Nat := do
  let r := (← get).bits
  if r.left = 0 then throw .ended
  let symbol := c.tree.symbol (r.ahead 16)
  let length := c.lengths[symbol]?.getD 0
  require (length != 0)
  if r.left < length then throw .ended
  modify fun s => { s with bits := s.bits.skip length }
  return symbol

end Code

/-- The code for word lengths, from those of its own words. -/
def lengthCode? (lengths : List Nat) : Option Code := Code.ofLengths? 7 lengths

/-- The codes of a block. -/
structure Codes where
  literals : Code
  distances : Code

/-- What the length symbols stand for: the smallest copy lengths, with the bits that may be
added. -/
def lengthTable : Array (Nat × Nat) := Inflate.lengthTable.pop.push (3, 16)

/-- What the distance symbols stand for: the smallest copy distances, with the bits that may be
added. -/
def distanceTable : Array (Nat × Nat) := Inflate.distanceTable ++ #[(32769, 14), (49153, 14)]

/-- The number that a symbol of a table stands for, together with the bits behind it. -/
def readTable (table : Array (Nat × Nat)) (symbol : Nat) : Reader Nat := do
  match table[symbol]? with
  | some (base, extra) => return base + (← number extra)
  | none => throw .corrupt

namespace Codes

/-- The codes of word lengths, for 288 literals and 32 distances. -/
def ofLengths? (literals distances : List Nat) : Option Codes := do
  let a ← Code.ofLengths? 9 (literals ++ List.replicate (288 - literals.length) 0)
  let b ← Code.ofLengths? 7 (distances ++ List.replicate (32 - distances.length) 0)
  return ⟨a, b⟩

/-- Reads codes until the one that ends a block; the number bounds the steps. -/
def run (c : Codes) : Nat → Reader Unit
  | 0 => throw .ended
  | n + 1 => do
    let symbol ← c.literals.read
    if symbol < 256 then
      write fun out => out.push symbol.toUInt8
      run c n
    else if symbol = 256 then return
    else
      let length ← readTable lengthTable (symbol - 257)
      let distance ← readTable distanceTable (← c.distances.read)
      write (Inflate.copy distance length)
      run c n

end Codes

/-- Reads word lengths, of which `found` holds those so far, last one first. Symbols above 15 repeat
the last length, or stand for several symbols without word. -/
def lengths (c : Code) (wanted : Nat) : Nat → List Nat → Reader (List Nat)
  | 0, _ => throw .ended
  | n + 1, found => do
    if found.length = wanted then return found.reverse
    let symbol ← c.read
    let more ←
      if symbol < 16 then pure [symbol]
      else if symbol = 16 then
        let k ← number 2
        require (found != [])
        pure (List.replicate (3 + k) (found.headD 0))
      else if symbol = 17 then pure (List.replicate (3 + (← number 3)) 0)
      else pure (List.replicate (11 + (← number 7)) 0)
    require (found.length + more.length ≤ wanted)
    lengths c wanted n (more ++ found)

/-- What is there, which has to be. -/
def present {α : Type} : Option α → Reader α
  | some x => return x
  | none => throw .corrupt

/-- Reads the description of the codes of a block; there has to be a word that ends the block. -/
def description : Reader Codes := do
  let literals := (← number 5) + 257
  let distances := (← number 5) + 1
  let short ← reading (Inflate.triples ((← number 4) + 4))
  let c ← present (lengthCode? (Inflate.bySymbol short))
  let wanted := literals + distances
  let all ← lengths c wanted (wanted + 1) []
  require (all[256]?.getD 0 != 0)
  present (Codes.ofLengths? (all.take literals) (all.drop literals))

def stored : Reader Unit := do
  modify fun s => { s with bits := s.bits.align }
  let size ← number 16
  let inverse ← number 16
  require (size + inverse == 65535)
  let r := (← get).bits
  let start := r.pos / 8
  write fun out => out ++ r.data.extract start (start + size)
  if r.left < 8 * size then throw .ended
  modify fun s => { s with bits := s.bits.skip (8 * size) }

def block (kind : Nat) : Reader Unit := do
  let steps := 8 * (← get).bits.data.size + 1
  match kind with
  | 0 => stored
  | 1 => (← present (Codes.ofLengths? Inflate.fixedLengths.1 Inflate.fixedLengths.2)).run steps
  | 2 => (← description).run steps
  | _ => throw .corrupt

/-- Reads blocks up to the last one; the number bounds the steps. -/
def blocks : Nat → Reader Unit
  | 0 => throw .ended
  | n + 1 => do
    let last ← number 1
    block (← number 2)
    if last = 1 then return
    blocks n

end Inflate64

/-- What compressed data stands for, as far as it goes; none if it is corrupt. -/
def inflate64 (data : Bytes) : Option Bytes :=
  match (Inflate64.blocks (8 * data.size + 1)).run.run ⟨⟨data, 0⟩, #[]⟩ with
  | (.error .corrupt, _) => none
  | (_, s) => some s.out

end LogicDecode
