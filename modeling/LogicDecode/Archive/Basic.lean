import LogicDecode.Archive.Checksum
import LogicDecode.Archive.Inflate
import LogicDecode.Archive.Inflate64
import LogicDecode.Archive.Number

/-!
# Archives

An `Archive` is a set of named entries, each plain or packed. `Archive.read` gives the content of an
entry by its name. A packed entry is looked for in its file and unpacked only then, and its bytes
have to pass a check.
-/

namespace LogicDecode

/-- An entry of a packed file, as the directory has it. -/
structure Packed where
  file : Bytes
  /-- Where the header in front of the content begins. -/
  place : Nat
  /-- How many bytes the packed content takes. -/
  size : Nat
  method : Nat
  /-- The check of the unpacked bytes. -/
  check : Nat
  needsPassword : Bool
  /-- Whether the content is encrypted by the scheme that has a field of its own. -/
  isSealed : Bool
deriving Repr

/-- How the content of an entry is kept. -/
inductive Content where
  | plain (data : Bytes)
  | packed (p : Packed)
deriving Repr

/-- Entries under their names. -/
structure Archive where
  entries : List (Bytes × Content)
deriving Repr

/-- Why the content of an entry cannot be had: the entry cannot be opened, or its bytes are not
what they should be. -/
inductive EntryError where
  | unopened (reason : String)
  | unreadable (reason : String)
deriving Repr, DecidableEq

namespace Packed

/-- The methods by which content may be packed: as it is, deflated in two ways, by other
compressions, and encrypted. -/
def methods : List Nat := [0, 8, 9, 12, 14, 93, 95, 99]

/-- Where the packed content begins: behind a header of its own, whose last numbers are the sizes of
the name and of the extra fields that stand in between. -/
def start? (p : Packed) : Option Nat := do
  if !Archive.signed p.file p.place Archive.localHeader then none
  let name ← Archive.number? p.file (p.place + 26) 2
  let extra ← Archive.number? p.file (p.place + 28) 2
  return p.place + 30 + name + extra

/-- Finds the packed content; of a file that ends before, it is what there is. -/
def content (p : Packed) : Except EntryError Bytes := do
  if p.needsPassword then
    throw (.unopened "unsupported Zip archive: Password required to decrypt file")
  match p.start? with
  | none => throw (.unopened "invalid Zip archive: Invalid local file header")
  | some start =>
    if !methods.contains p.method then
      throw (.unopened "unsupported Zip archive: Compression method not supported")
    if p.isSealed then throw (.unopened "provided password is incorrect")
    return p.file.extract start (start + p.size)

/-- Unpacks a content that is kept as it is or deflated. By the methods 14 and 95 only nothing can
be packed here: as no bytes at all, and by method 14 also as a header that ends too early, if its
first byte is a possible one. -/
def unpack (p : Packed) (data : Bytes) : Option Bytes :=
  match p.method with
  | 0 => some data
  | 8 => inflate data
  | 9 => inflate64 data
  | 14 => if data.size ≤ 18 && data.all (· < 225) 0 1 then some #[] else none
  | 95 => if data.isEmpty then some #[] else none
  | _ => none

/-- The unpacked bytes, if they pass the check. -/
def read (p : Packed) : Except EntryError Bytes := do
  match p.unpack (← p.content) with
  | some out => if checksum out = p.check then .ok out else .error (.unreadable "Invalid checksum")
  | none => .error (.unreadable "corrupt deflate stream")

end Packed

def Content.read : Content → Except EntryError Bytes
  | plain data => .ok data
  | packed p => p.read

namespace Archive

def ofList (entries : List (String × Bytes)) : Archive :=
  ⟨entries.map fun p => (p.1.toUTF8.data, .plain p.2)⟩

/-- The content of an entry; of several entries of a name it is the last one's. -/
def read (a : Archive) (name : String) : Except EntryError Bytes :=
  match a.entries.reverse.lookup name.toUTF8.data with
  | some c => c.read
  | none => .error (.unopened "specified file not found in archive")

end Archive

end LogicDecode
