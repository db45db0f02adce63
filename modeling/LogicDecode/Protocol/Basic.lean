import LogicDecode.Error
import LogicDecode.Mark
import LogicDecode.Samples.Chunk
import LogicDecode.Setup

/-!
# Protocol decoders

A decoder is a machine: it starts at a rate, takes chunks of samples or the marks of the decoder it
sits on, and makes findings. `Protocol σ` gives the moves of the machine on its states `σ`; all that
a decoder remembers between two calls is its state.

`scan` runs a decoder that looks at one sample after the other. A scan may be cut anywhere:
`scan_add` says that two scans in a row are one.
-/

namespace LogicDecode

/-- What a call gives back: the state after it, and the findings or a refusal. A refused call may
have changed the state, but its findings are lost. -/
structure Reply (σ : Type) where
  state : σ
  result : Except EngineError (List Finding)

/-- The moves of a decoder. -/
class Protocol (σ : Type) where
  /-- Gets ready for the first chunk, at a rate in Hz. -/
  start : σ → Nat → σ
  /-- Takes the next chunk of samples. -/
  decode : σ → Chunk → Reply σ
  /-- Takes a mark of the decoder below. -/
  derive : σ → Mark → Reply σ

section Scan

variable {σ : Type}

/-- Takes `count` samples from `sample` on; `found` holds the findings so far, last one first. -/
def scanAux (step : σ → Nat → σ × List Finding) : Nat → Nat → σ → List Finding → σ × List Finding
  | 0, _, s, found => (s, found.reverse)
  | count + 1, sample, s, found =>
    let (s', fs) := step s sample
    scanAux step count (sample + 1) s' (fs.reverseAux found)

/-- Takes `count` samples from `sample` on, one step each, and collects the findings in order. -/
def scan (step : σ → Nat → σ × List Finding) (s : σ) (sample count : Nat) : σ × List Finding :=
  scanAux step count sample s []

theorem scanAux_eq (step : σ → Nat → σ × List Finding) (count sample : Nat) (s : σ)
    (found : List Finding) :
    scanAux step count sample s found =
      ((scan step s sample count).1, found.reverse ++ (scan step s sample count).2) := by
  induction count generalizing sample s found with
  | zero => simp [scanAux, scan]
  | succ n ih =>
    simp only [scan, scanAux]
    rw [ih _ _ (List.reverseAux _ found), ih _ _ (List.reverseAux _ [])]
    simp [List.reverseAux_eq]

@[simp] theorem scan_zero (step : σ → Nat → σ × List Finding) (s : σ) (sample : Nat) :
    scan step s sample 0 = (s, []) := rfl

theorem scan_succ (step : σ → Nat → σ × List Finding) (s : σ) (sample count : Nat) :
    scan step s sample (count + 1) =
      ((scan step (step s sample).1 (sample + 1) count).1,
        (step s sample).2 ++ (scan step (step s sample).1 (sample + 1) count).2) := by
  show scanAux step count (sample + 1) (step s sample).1 _ = _
  rw [scanAux_eq]
  simp [List.reverseAux_eq]

theorem scan_add (step : σ → Nat → σ × List Finding) (s : σ) (sample m n : Nat) :
    scan step s sample (m + n) =
      ((scan step (scan step s sample m).1 (sample + m) n).1,
        (scan step s sample m).2 ++ (scan step (scan step s sample m).1 (sample + m) n).2) := by
  induction m generalizing sample s with
  | zero => simp
  | succ m ih =>
    rw [show m + 1 + n = (m + n) + 1 by omega, scan_succ, scan_succ, ih]
    simp [List.append_assoc, show sample + 1 + m = sample + (m + 1) by omega]

end Scan

end LogicDecode
