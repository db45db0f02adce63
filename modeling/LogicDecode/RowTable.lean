import LogicDecode.Row

/-!
# Row tables

A `RowTable` assigns the marks of a chain of decoders to display rows by decoder id and class. Of
several rows that list a class the first one has it, and a class in no row falls to the decoder's
default row. The table also lists its rows in the order of the chain, each once.
-/

namespace LogicDecode

/-- How a mark came to its row. -/
inductive Routing where
  /-- The row lists the mark's class. -/
  | mapped
  /-- No row does, so it is the default row. -/
  | fallback
deriving Repr, DecidableEq

/-- The rows of a chain of decoders, and which classes they show. -/
structure RowTable where
  /-- The row of a class of a decoder; the first entry counts. -/
  classes : List ((String × Nat) × Row)
  /-- The default row of each decoder. -/
  defaults : List (String × Row)
  rows : List Row
deriving Repr

namespace RowTable

def empty : RowTable := ⟨[], [], []⟩

def addRow (t : RowTable) (r : Row) : RowTable :=
  let listed := match r.spec? with
    | some spec => spec.classes.map fun c => ((r.profile.id, c), r)
    | none => []
  { t with
    classes := t.classes ++ listed
    rows := if t.rows.contains r then t.rows else t.rows ++ [r] }

/-- Enters the default row of a decoder, unless a decoder of that id has one. -/
def addDefault (t : RowTable) (p : Profile) : RowTable :=
  if (t.defaults.lookup p.id).isSome then t
  else
    let r := Row.ofProfile p
    { t with defaults := t.defaults ++ [(p.id, r)], rows := t.rows ++ [r] }

/-- Enters the rows of a decoder, the default row behind the others. -/
def add (t : RowTable) (p : Profile) : RowTable :=
  (p.declaredRows.foldl addRow t).addDefault p

def ofProfiles (ps : List Profile) : RowTable := ps.foldl add empty

/-- The row for a class of a decoder, none if the decoder is not in the chain. -/
def classify (t : RowTable) (decoder : String) (cls : Nat) : Option (Row × Routing) :=
  match t.classes.lookup (decoder, cls) with
  | some r => some (r, .mapped)
  | none => (t.defaults.lookup decoder).map fun r => (r, .fallback)

def isEmpty (t : RowTable) : Bool := t.rows.isEmpty

end RowTable

end LogicDecode
