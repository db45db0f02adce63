import LogicDecode.Archive.Basic
import LogicDecode.Archive.Extra
import LogicDecode.Text.CodePage
import LogicDecode.Text.Mended

/-!
# Directories of archives

`Archive.ofBytes` reads the directory of a packed file. The directory is found from the end of the
file, where a record tells how many entries there are and where their headers begin. Numbers that
are too large for that record are in a long record in front of it, to which a locator leads. Bytes
may stand in front of the archive: all places are shifted by as much as the first header, or the
long record, stands behind its stated place. A record that does not lead to a directory is passed
over.
-/

namespace LogicDecode

namespace Archive

/-- The record at the end of the directory. -/
structure EndRecord where
  place : Nat
  disk : Nat
  directoryDisk : Nat
  /-- How many entries are on this disk. -/
  diskCount : Nat
  count : Nat
  directory : Nat

/-- Reads the record at a place; the comment behind it has to fit into the file. -/
def endRecord? (file : Bytes) (place : Nat) : Option EndRecord := do
  if !signed file place endRecord then none
  let disk ← number? file (place + 4) 2
  let directoryDisk ← number? file (place + 6) 2
  let diskCount ← number? file (place + 8) 2
  let count ← number? file (place + 10) 2
  let directory ← number? file (place + 16) 4
  let comment ← number? file (place + 20) 2
  if file.size < place + 22 + comment then none
  return ⟨place, disk, directoryDisk, diskCount, count, directory⟩

/-- The record that leads to the long one. -/
structure Locator where
  place : Nat
  directoryDisk : Nat
  longEnd : Nat
  disks : Nat

/-- Reads the locator in front of a record in which some number is full. -/
def locator? (file : Bytes) (e : EndRecord) : Option Locator := do
  if e.count ≠ fullShort && e.directory ≠ fullLong || e.place < 20 then none
  let place := e.place - 20
  if !signed file place locatorRecord then none
  let directoryDisk ← number? file (place + 4) 4
  let longEnd ← number? file (place + 8) 8
  let disks ← number? file (place + 16) 4
  return ⟨place, directoryDisk, longEnd, disks⟩

/-- Where the headers of a number of entries begin, and how far all places are shifted. -/
structure Layout where
  shift : Nat
  directory : Nat
  count : Nat

/-- How far the archive is from the beginning of the file. -/
def EndRecord.shift? (e : EndRecord) (file : Bytes) : Option Nat :=
  let room := e.place - e.directory
  if e.count = 0 then some room
  else findSigned file directoryHeader (fun p => some (p - e.directory)) room e.directory

def EndRecord.layout? (e : EndRecord) (file : Bytes) : Option Layout := do
  let shift ← e.shift? file
  if e.disk ≠ e.directoryDisk then none
  return ⟨shift, e.directory + shift, e.diskCount⟩

/-- The record in front of the locator. -/
structure LongEnd where
  place : Nat
  madeBy : Nat
  neededBy : Nat
  disk : Nat
  directoryDisk : Nat
  diskCount : Nat
  count : Nat
  directory : Nat

/-- Reads the long record at a place; it has to reach up to the locator, to agree with it, and to
leave room for the headers in front. -/
def longEnd? (file : Bytes) (l : Locator) (place : Nat) : Option LongEnd := do
  let size ← number? file (place + 4) 8
  let madeBy ← number? file (place + 12) 2
  let neededBy ← number? file (place + 14) 2
  let disk ← number? file (place + 16) 4
  let directoryDisk ← number? file (place + 20) 4
  let diskCount ← number? file (place + 24) 8
  let count ← number? file (place + 32) 8
  let directory ← number? file (place + 48) 8
  if size < 44 || place + size + 12 ≠ l.place then none
  if directoryDisk ≠ l.directoryDisk || place < count * 46 + directory then none
  return ⟨place, madeBy, neededBy, disk, directoryDisk, diskCount, count, directory⟩

def Locator.layout? (l : Locator) (file : Bytes) : Option Layout := do
  if 1 < l.disks then none
  let e ← findSigned file longEndRecord (longEnd? file l) (l.place - l.longEnd) l.longEnd
  if e.count < e.diskCount || e.madeBy < e.neededBy || e.disk ≠ e.directoryDisk then none
  let shift := e.place - l.longEnd
  return ⟨shift, e.directory + shift, e.count⟩

def commentText (isUnicode : Bool) (comment : Bytes) : Bytes :=
  if isUnicode then mended comment else (CodePage.decode comment).toUTF8.data

/-- Reads the header of an entry in the directory, in front of which the entry has to begin. Returns
what the header says, and where the next one begins. -/
def Layout.header? (l : Layout) (file : Bytes) (place : Nat) : Option (DirectoryEntry × Nat) := do
  if !signed file place directoryHeader then none
  let flags ← number? file (place + 8) 2
  let method ← number? file (place + 10) 2
  let check ← number? file (place + 16) 4
  let packedSize ← number? file (place + 20) 4
  let size ← number? file (place + 24) 4
  let extra := place + 46 + (← number? file (place + 28) 2)
  let comment := extra + (← number? file (place + 30) 2)
  let next := comment + (← number? file (place + 32) 2)
  let start ← number? file (place + 42) 4
  if file.size < next then none
  let e : DirectoryEntry := {
    name := file.extract (place + 46) extra
    comment := commentText (flags.testBit 11) (file.extract comment next)
    method := method
    check := check
    size := size
    packedSize := packedSize
    place := start
    needsPassword := flags.testBit 0
    isSealed := false }
  let e ← e.withExtra? (file.extract extra comment)
  if e.method = 99 && !e.isSealed then none
  if l.directory ≤ e.place + l.shift then none
  return ({ e with place := e.place + l.shift }, next)

/-- Reads the headers of a number of entries, behind those that have been found, last one first. -/
def Layout.headers? (l : Layout) (file : Bytes) :
    (count place : Nat) → List DirectoryEntry → Option (List DirectoryEntry)
  | 0, _, found => some found.reverse
  | count + 1, place, found => do
    let (e, next) ← l.header? file place
    headers? l file count next (e :: found)

def ending? (file : Bytes) (place : Nat) : Option Archive := do
  let e ← endRecord? file place
  let layout ←
    match locator? file e with
    | some l => l.layout? file
    | none => e.layout? file
  let found ← layout.headers? file layout.count layout.directory []
  return ⟨found.map fun d =>
    (d.name, .packed ⟨file, d.place, d.packedSize, d.method, d.check, d.needsPassword, d.isSealed⟩)⟩

/-- The archive whose directory ends at the last possible place before `n`. -/
def lastEnding? (file : Bytes) : (n : Nat) → Option Archive
  | 0 => none
  | n + 1 =>
    match ending? file n with
    | some a => some a
    | none => lastEnding? file n

/-- The archive in a file, none if it holds no archive. -/
def ofBytes (file : Bytes) : Option Archive := lastEnding? file file.size

end Archive

end LogicDecode
