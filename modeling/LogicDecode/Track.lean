import LogicDecode.Fault
import LogicDecode.Mark

/-!
# Tracks

A `Track` stores the marks of one row in the order of their starts, which `push` insists on. Only
the starts are sorted: a long mark may reach over later ones. A range query cuts off the marks that
start too late by binary search and tests the others one by one; `collect` puts what it finds behind
what earlier queries have found.
-/

namespace LogicDecode

/-- The number of leading elements that satisfy a test, between `lo` and `hi`, for a test that
fails from some point on. -/
def cutPoint {α : Type} (p : α → Bool) (xs : Array α) (lo hi : Nat) : Nat :=
  if _h : lo < hi then
    let mid := (lo + hi) / 2
    match xs[mid]? with
    | none => cutPoint p xs lo mid
    | some x => if p x then cutPoint p xs (mid + 1) hi else cutPoint p xs lo mid
  else lo
termination_by hi - lo

/-- The marks of one row, and how far they reach. -/
structure Track where
  marks : Array Mark
  /-- The largest end so far. -/
  reach : Nat
deriving Repr, Inhabited

namespace Track

def empty : Track := ⟨#[], 0⟩

def size (t : Track) : Nat := t.marks.size

def isEmpty (t : Track) : Bool := t.marks.isEmpty

def admits (t : Track) (m : Mark) : Bool :=
  match t.marks.back? with
  | none => true
  | some last => last.start ≤ m.start

def insert (t : Track) (m : Mark) : Track := ⟨t.marks.push m, max t.reach m.stop⟩

/-- Stores a mark, which must not start before the last one. -/
def push (t : Track) (m : Mark) : Except Fault Track :=
  if t.admits m then .ok (t.insert m) else .error .sampleOrder

/-- Adds the stored marks that reach into `[start, stop)` to those found so far. -/
def collect (t : Track) (found : Array Mark) (start stop : Nat) : Array Mark :=
  let n := cutPoint (fun m => m.start < stop) t.marks 0 t.marks.size
  (t.marks.toList.take n).foldl (fun found m => if m.overlaps start stop then found.push m else found) found

/-- The stored marks that reach into `[start, stop)`, in their order. -/
def within (t : Track) (start stop : Nat) : List Mark := (t.collect #[] start stop).toList

theorem toList_collect (t : Track) (found : Array Mark) (start stop : Nat) :
    (t.collect found start stop).toList = found.toList ++
      (t.marks.toList.take (cutPoint (fun m => m.start < stop) t.marks 0 t.marks.size)).filter fun m =>
        m.overlaps start stop := by
  unfold collect
  dsimp only
  generalize t.marks.toList.take _ = ms
  induction ms generalizing found with
  | nil => simp
  | cons m ms ih =>
    by_cases h : m.overlaps start stop = true <;> simp [h, ih]

end Track

end LogicDecode
