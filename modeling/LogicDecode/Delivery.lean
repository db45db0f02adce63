import LogicDecode.Protocol.Basic

/-!
# Delivery

Instances of decoders sit on top of each other: an instance without a lower one takes samples, any
other the marks of its lower one. `Flow.deliver` offers each mark of an instance to those above it,
reports it, and then delivers what they made of it in the same way. A refusal ends the delivery: the
mark in question is not reported, and nothing that comes after it.

Every instance has at most one lower one, so what hangs on an instance without a lower one is a tree
and no deeper than there are instances; delivery counts down from that number.
-/

namespace LogicDecode

/-- A decoder at work. -/
structure Instance (σ : Type) where
  /-- The decoder's id, which its marks bear. -/
  decoder : String
  state : σ
  /-- The number of the instance whose marks it takes. -/
  lower : Option Nat
deriving Repr

/-- The instances during the delivery of a chunk, what has been reported, and the refusal that
ended the delivery. -/
structure Flow (σ : Type) where
  instances : List (Instance σ)
  reported : Array Mark
  refusal : Option EngineError

namespace Flow

variable {σ : Type} [Protocol σ]

def ofInstances (xs : List (Instance σ)) : Flow σ := ⟨xs, #[], none⟩

/-- The numbers of the instances that satisfy a test of their lower one. -/
def numbers (f : Flow σ) (p : Option Nat → Bool) : List Nat :=
  (List.range f.instances.length).filter fun i =>
    match f.instances[i]? with
    | some x => p x.lower
    | none => false

/-- The instances that take samples. -/
def roots (f : Flow σ) : List Nat := f.numbers Option.isNone

/-- The instances on top of an instance. -/
def uppers (f : Flow σ) (lower : Nat) : List Nat := f.numbers (· == some lower)

/-- Makes one move of an instance: its next state is kept, and its findings are signed. -/
def move (f : Flow σ) (i : Nat) (call : σ → Reply σ) : Flow σ × List Mark :=
  match f.refusal, f.instances[i]? with
  | none, some x =>
    let reply := call x.state
    let xs := f.instances.set i { x with state := reply.state }
    match reply.result with
    | .ok fs => ({ f with instances := xs }, ((Sink.empty x.decoder).putAll fs).marks)
    | .error e => ({ f with instances := xs, refusal := some e }, [])
  | _, _ => (f, [])

/-- Offers a mark to instances one after the other, and keeps what each makes of it. -/
def offer (f : Flow σ) (m : Mark) : List Nat → Flow σ × List (Nat × List Mark)
  | [] => (f, [])
  | i :: rest =>
    let (f', ms) := f.move i fun s => Protocol.derive s m
    let (f'', more) := f'.offer m rest
    (f'', (i, ms) :: more)

/-- Reports a mark, unless the delivery has ended. -/
def report (f : Flow σ) (m : Mark) : Flow σ :=
  match f.refusal with
  | none => { f with reported := f.reported.push m }
  | some _ => f

/-- Delivers the marks of an instance: offers each to the instances above, reports it, and delivers
what they made of it. The first number bounds the depth. -/
def deliver : Nat → Flow σ → Nat → List Mark → Flow σ
  | 0, f, _, _ => f
  | depth + 1, f, lower, marks => marks.foldl (fun f m =>
      let (f', derived) := f.offer m (f.uppers lower)
      derived.foldl (fun f d => deliver depth f d.1 d.2) (f'.report m)) f

def feed (f : Flow σ) (c : Chunk) (i : Nat) : Flow σ :=
  let (f', ms) := f.move i fun s => Protocol.decode s c
  deliver f'.instances.length f' i ms

/-- Hands a chunk to every instance that takes samples. -/
def run (f : Flow σ) (c : Chunk) : Flow σ := f.roots.foldl (fun f i => f.feed c i) f

end Flow

end LogicDecode
