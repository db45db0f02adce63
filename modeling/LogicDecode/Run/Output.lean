import LogicDecode.Error
import LogicDecode.RowTable
import LogicDecode.Track

/-!
# Output of a run

`Output` holds what a run has produced: the tracks of the rows, progress, and the error it ended
with. `Output.store` files a mark in the track of its row. A mark of a decoder that is not in the
table, of a row without track, or out of order within its row is a fault of whoever sent it.
-/

namespace LogicDecode

/-- What a run puts on record. -/
inductive LogEntry where
  | failed (message : String)
  /-- A mark of a decoder without rows. -/
  | stray (decoder : String) (cls : Nat)
  /-- The first mark of a class that is in no declared row of a decoder that has some. -/
  | unlisted (decoder : String) (cls : Nat)
  | noTrack (row : String)
  /-- The run ended in a fault, noted when its end is waited for. -/
  | faulted
deriving Repr, DecidableEq

def LogEntry.render : LogEntry → String
  | .failed message => "ERROR Decode failed: " ++ message
  | .stray decoder cls => s!"ERROR Unexpected annotation: decoder = {decoder}, format = {cls}"
  | .unlisted decoder cls =>
    s!"WARN Decoder '{decoder}' class {cls} is not in any annotation row, " ++
      "showing it in the default row"
  | .noTrack row => "ERROR No row data for " ++ row
  | .faulted => "ERROR Decode thread panicked: Any \x7b .. \x7d"

/-- The results of a run. -/
structure Output where
  table : RowTable
  tracks : List (RowKey × Track)
  /-- The samples that the engine has taken. -/
  decoded : Nat
  /-- The marks stored so far. -/
  stored : Nat
  notifyPeriod : Nat
  error : Option RunError
  /-- The classes noted as unlisted. -/
  unlisted : List (String × Nat)
deriving Repr

/-- What came of storing a mark: the output after it, what was put on record, and whether the
subscribers are to be told. -/
structure Stored where
  output : Output
  log : List LogEntry
  result : Except Fault Bool

/-- Replaces the value under a key, if there is one, by what a function makes of it. -/
def modifyKey {κ α : Type} [DecidableEq κ] (k : κ) (f : α → α) : List (κ × α) → List (κ × α)
  | [] => []
  | (k', a) :: rest => if k = k' then (k', f a) :: rest else (k', a) :: modifyKey k f rest

namespace Output

def fresh (notifyPeriod : Nat) : Output := ⟨.empty, [], 0, 0, notifyPeriod, none, []⟩

def clear (o : Output) : Output :=
  { o with table := .empty, tracks := [], decoded := 0, stored := 0, error := none, unlisted := [] }

def prepare (o : Output) (table : RowTable) (notifyPeriod : Nat) : Output :=
  { o with
    table := table
    tracks := table.rows.map fun r => (r.key, Track.empty)
    notifyPeriod := max notifyPeriod 1 }

/-- Notes a class that fell to the default row though its decoder declares rows. -/
def noteUnlisted (o : Output) (m : Mark) (row : Row) (routing : Routing) :
    Output × List LogEntry :=
  if routing = .fallback ∧ row.profile.rows ≠ [] ∧ (m.decoder, m.cls) ∉ o.unlisted then
    ({ o with unlisted := o.unlisted ++ [(m.decoder, m.cls)] }, [.unlisted m.decoder m.cls])
  else (o, [])

def track? (o : Output) (row : Row) : Option Track := o.tracks.lookup row.key

/-- Why a mark cannot be filed under a row, if it cannot. -/
def obstacle? (o : Output) (row : Row) (m : Mark) : Option Fault :=
  match o.track? row with
  | none => some .missingTrack
  | some t => if t.admits m then none else some .sampleOrder

def file (o : Output) (row : Row) (m : Mark) : Output :=
  { o with tracks := modifyKey row.key (fun t => t.insert m) o.tracks, stored := o.stored + 1 }

/-- Classifies a mark and files it; the subscribers are told of the first one and of every
`notifyPeriod`-th after it. -/
def store (o : Output) (m : Mark) : Stored :=
  match o.table.classify m.decoder m.cls with
  | none => ⟨o, [.stray m.decoder m.cls], .error (.stray m.decoder)⟩
  | some (row, routing) =>
    let (o', log) := o.noteUnlisted m row routing
    let tell := o'.stored % o'.notifyPeriod == 0
    match o'.obstacle? row m with
    | none => ⟨o'.file row m, log, .ok tell⟩
    | some .missingTrack => ⟨o', log ++ [.noTrack row.label], .error .missingTrack⟩
    | some f => ⟨o', log, .error f⟩

/-- The stored marks of a row that reach into `[start, stop)`. -/
def within (o : Output) (row : Row) (start stop : Nat) : List Mark :=
  match o.track? row with
  | some t => t.within start stop
  | none => []

def reach (o : Output) : Nat := (o.tracks.map fun p => p.2.reach).foldl max 0

def errorMessage (o : Output) : String := (o.error.map RunError.message).getD ""

end Output

end LogicDecode
