/-!
# Faults and outcomes

A call ends in one of three ways: with an answer, with a refusal that names its cause in a type of
its own, or with a `Fault`. A fault stands for a broken promise of the caller or a number that does
not fit in 64 bits; what the call had changed before it stays changed.
-/

namespace LogicDecode

/-- Sample numbers, sizes and counts have 64 bits, so they stay below this bound. -/
def wordBound : Nat := 0x10000000000000000

/-- No storage has as many bytes, for addresses have 47 bits. -/
def storageBound : Nat := 0x800000000000

/-- Why a call gave neither an answer nor a refusal. -/
inductive Fault where
  /-- A result needs more than 64 bits. -/
  | overflow
  | divisionByZero
  /-- Storage of a size that no memory can have. -/
  | allocation
  /-- A row number that is not below the number of declared rows. -/
  | rowIndex
  /-- A classified row without storage. -/
  | missingTrack
  | zeroUnit
  | wordSize
  | lineCount
  /-- An edit while a run is going on. -/
  | busy
  | noSuchStage (index size : Nat)
  /-- A mark that starts before the last one of its row. -/
  | sampleOrder
  /-- A mark whose decoder has no row. -/
  | stray (decoder : String)
deriving Repr, DecidableEq

/-- The text of a fault that is worded; faults of arithmetic and storage have none. -/
def Fault.message? : Fault → Option String
  | .overflow | .divisionByZero | .allocation | .rowIndex | .missingTrack => none
  | .zeroUnit => some "unit size must be non-zero"
  | .wordSize => some "Word size must be 1-32"
  | .lineCount => some "Data bits must be 1-8"
  | .busy => some "cannot edit the decoder stack while decoding"
  | .noSuchStage index size => some s!"decoder index {index} out of range for stack of {size}"
  | .sampleOrder => some "annotation out of sample order"
  | .stray decoder => some s!"annotation from decoder '{decoder}' does not belong to any row"

/-- The sum, if it fits. -/
def checkedAdd (a b : Nat) : Except Fault Nat :=
  if a + b < wordBound then .ok (a + b) else .error .overflow

/-- The product, if it fits. -/
def checkedMul (a b : Nat) : Except Fault Nat :=
  if a * b < wordBound then .ok (a * b) else .error .overflow

/-- The difference, if the second number is not the larger one. -/
def checkedSub (a b : Nat) : Except Fault Nat :=
  if b ≤ a then .ok (a - b) else .error .overflow

/-- The ways a call fails: refused with a cause, or ended by a fault. -/
inductive Failure (ε : Type) where
  | refused (cause : ε)
  | fault (fault : Fault)
deriving Repr, DecidableEq

/-- The result of a call that may be refused or end in a fault. -/
abbrev Outcome (ε α : Type) := Except (Failure ε) α

namespace Outcome

/-- Takes over the outcome of a part that can only be refused. -/
def accept {ε α : Type} : Except ε α → Outcome ε α
  | .ok a => .ok a
  | .error e => .error (.refused e)

/-- Takes over the outcome of a part that can only end in a fault. -/
def check {ε α : Type} : Except Fault α → Outcome ε α
  | .ok a => .ok a
  | .error f => .error (.fault f)

/-- Rewords the cause of a refusal. -/
def because {ε δ α : Type} (f : ε → δ) : Outcome ε α → Outcome δ α
  | .ok a => .ok a
  | .error (.refused e) => .error (.refused (f e))
  | .error (.fault x) => .error (.fault x)

end Outcome

theorem checkedAdd_eq_ok {a b c : Nat} :
    checkedAdd a b = .ok c ↔ c = a + b ∧ a + b < wordBound := by
  unfold checkedAdd; split <;> simp_all [eq_comm]

theorem checkedMul_eq_ok {a b c : Nat} :
    checkedMul a b = .ok c ↔ c = a * b ∧ a * b < wordBound := by
  unfold checkedMul; split <;> simp_all [eq_comm]

end LogicDecode
