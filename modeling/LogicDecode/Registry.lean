import LogicDecode.Fault
import LogicDecode.Profile
import LogicDecode.Protocol.Basic
import LogicDecode.Protocol.Parallel
import LogicDecode.Protocol.Spi

/-!
# Registries

A `Registration` tells how to make instances of a decoder; a `Registry` holds registrations under
their decoders' ids. `Builtin` joins the decoders that come with the library.
-/

namespace LogicDecode

/-- A decoder's profile, and how an instance is made from a setup. -/
structure Registration (σ : Type) where
  profile : Profile
  create : Setup → Outcome EngineError σ

/-- The registration of a decoder as one case of a larger family. -/
def Registration.map {σ τ : Type} (f : σ → τ) (r : Registration σ) : Registration τ :=
  ⟨r.profile, fun s => f <$> r.create s⟩

abbrev Registry (σ : Type) := Keyed (Registration σ)

namespace Registry

variable {σ : Type}

/-- Adds a registration, in the place of one for the same id. -/
def register (r : Registry σ) (x : Registration σ) : Registry σ := r.insert x.profile.id x

def ofList (xs : List (Registration σ)) : Registry σ := xs.foldl register []

def profile? (r : Registry σ) (id : String) : Option Profile := (r.get? id).map (·.profile)

end Registry

/-- A decoder that comes with the library. -/
inductive Builtin where
  | spi (d : Spi)
  | parallel (d : Parallel)
deriving Repr, DecidableEq

/-- A reply with its state put into a larger family. -/
def Reply.map {σ τ : Type} (f : σ → τ) (r : Reply σ) : Reply τ := ⟨f r.state, r.result⟩

instance : Protocol Builtin where
  start
    | .spi d, hz => .spi (Protocol.start d hz)
    | .parallel d, hz => .parallel (Protocol.start d hz)
  decode
    | .spi d, c => (Protocol.decode d c).map .spi
    | .parallel d, c => (Protocol.decode d c).map .parallel
  derive
    | .spi d, m => (Protocol.derive d m).map .spi
    | .parallel d, m => (Protocol.derive d m).map .parallel

namespace Builtin

def registrations : List (Registration Builtin) :=
  [⟨Spi.profile, fun s => .spi <$> Spi.ofSetup s⟩,
    ⟨Parallel.profile, fun s => .parallel <$> Parallel.ofSetup s⟩]

def registry : Registry Builtin := .ofList registrations

end Builtin

end LogicDecode
