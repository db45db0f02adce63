import LogicDecode.Samples.Unit

/-!
# Numbers in files

Numbers of a fixed width, least significant byte first, and the kinds of parts of a packed file,
which are found by the numbers they begin with.
-/

namespace LogicDecode

namespace Archive

/-- The number in `width` bytes at a place, none if the file ends before. -/
def number? (file : Bytes) (place : Nat) : (width : Nat) → Option Nat
  | 0 => some 0
  | width + 1 => do
    let b ← file[place]?
    let rest ← number? file (place + 1) width
    return b.toNat + 256 * rest

/-- Whether a part of a kind begins at a place: the letters `PK`, and the number of the kind. -/
def signed (file : Bytes) (place kind : Nat) : Bool :=
  file[place]? == some 0x50 && file[place + 1]? == some 0x4b &&
    number? file (place + 2) 2 == some kind

/-- The first answer of `f` at those of the `n` places from `place` on where a part of a kind
begins. -/
def findSigned {α : Type} (file : Bytes) (kind : Nat) (f : Nat → Option α) :
    (n place : Nat) → Option α
  | 0, _ => none
  | n + 1, place =>
    match if signed file place kind then f place else none with
    | some a => some a
    | none => findSigned file kind f n (place + 1)

def localHeader : Nat := 0x0403

def directoryHeader : Nat := 0x0201

def endRecord : Nat := 0x0605

def longEndRecord : Nat := 0x0606

def locatorRecord : Nat := 0x0706

/-- The largest number of two bytes; it stands for one that is kept elsewhere. -/
def fullShort : Nat := 0xffff

/-- The largest number of four bytes; it stands for one that is kept elsewhere. -/
def fullLong : Nat := 0xffffffff

end Archive

end LogicDecode
