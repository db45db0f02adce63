import LogicDecode.Archive.Checksum
import LogicDecode.Archive.Number

/-!
# Extra fields

A header in the directory may carry fields that add to it: long sizes and places, times, a scheme of
encryption, and the name and the comment as Unicode text. `DirectoryEntry.withExtra?` reads them. A
field of a known kind that is not as it should be spoils the header. Where the bytes end within a
field, what has been read up to there counts.
-/

namespace LogicDecode

/-- What a header in the directory says of its entry. -/
structure DirectoryEntry where
  name : Bytes
  /-- The comment, as text. -/
  comment : Bytes
  method : Nat
  check : Nat
  /-- How many bytes the unpacked content takes. -/
  size : Nat
  packedSize : Nat
  /-- Where the header in front of the content begins. -/
  place : Nat
  needsPassword : Bool
  isSealed : Bool
deriving Repr

namespace Extra

/-- Why reading stops: the bytes end, or a field is wrong. -/
inductive Stop where
  | ended
  | wrong
deriving Repr, DecidableEq

/-- What is known so far, and the bytes that are left. -/
structure State where
  entry : DirectoryEntry
  rest : List UInt8

/-- Steps of reading; what is known when one stops is kept. -/
abbrev Reader := ExceptT Stop (StateM State)

def take (n : Nat) : Reader (List UInt8) := do
  let s ← get
  let xs := s.rest.take n
  if xs.length < n then throw .ended
  set { s with rest := s.rest.drop n }
  return xs

/-- Takes a number of some width, least significant byte first. -/
def number (width : Nat) : Reader Nat := do
  return (← take width).foldr (fun b n => b.toNat + 256 * n) 0

def require (ok : Bool) : Reader Unit := if ok then pure () else throw .wrong

def update (f : DirectoryEntry → DirectoryEntry) : Reader Unit :=
  modify fun s => { s with entry := f s.entry }

/-- Takes a long number if the field has room for all of them, or if the short number is full.
Returns how many bytes that took. -/
def longNumber (size short : Nat) (put : Nat → DirectoryEntry → DirectoryEntry) :
    Reader Nat := do
  if 24 ≤ size || short == Archive.fullLong then
    let n ← number 8
    update (put n)
    return 8
  else return 0

def longNumbers (size : Nat) : Reader Unit := do
  let e := (← get).entry
  let a ← longNumber size e.size fun n e => { e with size := n }
  let b ← longNumber size e.packedSize fun n e => { e with packedSize := n }
  let c ← longNumber size e.place fun n e => { e with place := n }
  require (a + b + c ≤ size)
  discard (take (size - (a + b + c)))

/-- Takes times of a file system, which come in a part of 24 bytes under the tag 1. -/
def systemTimes (size : Nat) : Reader Unit := do
  require (size == 32)
  discard (number 4)
  require ((← number 2) == 1)
  require ((← number 2) == 24)
  discard (take 24)

/-- Takes times of four bytes each, by flags that tell which of three there are. A single time may
come whatever the flags are. -/
def times (size : Nat) : Reader Unit := do
  let flags ← number 1
  let count := flags % 2 + flags / 2 % 2 + flags / 4
  require (flags < 8 && (size == 5 || size == 1 + 4 * count))
  discard (take (size - 1))

/-- Takes a scheme of encryption: its version, its vendor, its strength, and the method by which the
content was packed before. -/
def encryption (size : Nat) : Reader Unit := do
  require (size == 7)
  let version ← number 2
  let vendor ← number 2
  let strength ← number 1
  let method ← number 2
  require (vendor == 0x4541 && (version == 1 || version == 2))
  require (1 ≤ strength && strength ≤ 3)
  update fun e => { e with method := method, isSealed := true }

/-- Takes text that takes the place of another one, whose check it carries. -/
def text (size : Nat) (old : DirectoryEntry → Bytes) : Reader Bytes := do
  discard (number 1)
  let check ← number 4
  require (5 ≤ size)
  let new := (← take (size - 5)).toArray
  require (check == checksum (old (← get).entry))
  require (ByteArray.validateUTF8 ⟨new⟩)
  return new

def field : Reader Unit := do
  let kind ← number 2
  let size ← number 2
  if kind = 0x0001 then longNumbers size
  else if kind = 0x000a then systemTimes size
  else if kind = 0x5455 then times size
  else if kind = 0x9901 then encryption size
  else if kind = 0x6375 then
    let comment ← text size DirectoryEntry.comment
    update fun e => { e with comment := comment }
  else if kind = 0x7075 then
    let name ← text size DirectoryEntry.name
    update fun e => { e with name := name }
  else discard (take size)

/-- Reads fields up to the end; the number bounds them. -/
def fields : Nat → Reader Unit
  | 0 => pure ()
  | n + 1 => do
    if (← get).rest.isEmpty then return
    field
    fields n

end Extra

/-- The entry with what its extra fields add, none if one of them is wrong. -/
def DirectoryEntry.withExtra? (e : DirectoryEntry) (extra : Bytes) : Option DirectoryEntry :=
  match (Extra.fields extra.size).run.run ⟨e, extra.toList⟩ with
  | (.error .wrong, _) => none
  | (_, s) => some s.entry

end LogicDecode
