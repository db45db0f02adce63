import LogicDecode.Proofs.HexWord
import LogicDecode.Proofs.Samplers

/-!
# What a parallel decoder finds in a waveform

`Parallel.Settings.meaning` says without any state what a decoder finds: the samples at which the clock
moves as the strobe asks are the triggers, and from each trigger to the next one there is a word with
the value on the lines at the former. `Parallel.takeAll_start_words` says that a started decoder puts
just these words, in this order, however the samples are cut into chunks, and that they tile the time
from the first trigger to the last one.

The invariant between two samples is `Parallel.Waiting`: the word that waits in the decoder is that of
the last trigger so far. One sample keeps it, and what it puts is what it adds to the meaning.
-/

namespace LogicDecode

namespace Finding

/-- Findings that share out the samples `[first, stop)`: each one ends where the next one begins. -/
def Tile (stop : Nat) : Nat → List Finding → Prop
  | first, [] => first = stop
  | first, f :: fs => f.start = first ∧ f.start < f.stop ∧ Tile stop f.stop fs

end Finding

/-- Something made of each two neighbours of a list. -/
def eachPair {α β : Type} (f : α → α → β) (xs : List α) : List β := xs.zipWith f xs.tail

section Pairs
variable {α β : Type} {f : α → α → β}

theorem eachPair_cons_cons (a b : α) (xs : List α) :
    eachPair f (a :: b :: xs) = f a b :: eachPair f (b :: xs) := rfl

theorem eachPair_append_singleton (xs : List α) (b : α) :
    eachPair f (xs ++ [b]) = eachPair f xs ++ (xs.getLast?.map (f · b)).toList := by
  induction xs with
  | nil => rfl
  | cons a xs ih =>
    cases xs with
    | nil => rfl
    | cons a' xs =>
      rw [List.cons_append, List.cons_append, eachPair_cons_cons, ← List.cons_append, ih,
        eachPair_cons_cons, List.getLast?_cons_cons, List.cons_append]

theorem mem_eachPair {xs : List α} {y : β} (h : y ∈ eachPair f xs) : ∃ a ∈ xs, ∃ b ∈ xs, y = f a b := by
  induction xs with
  | nil => cases h
  | cons a xs ih =>
    cases xs with
    | nil => cases h
    | cons b xs =>
      rw [eachPair_cons_cons] at h
      rcases List.mem_cons.1 h with rfl | h
      · exact ⟨a, List.mem_cons_self .., b, List.mem_cons_of_mem _ (List.mem_cons_self ..), rfl⟩
      · obtain ⟨a', ha', b', hb', heq⟩ := ih h
        exact ⟨a', List.mem_cons_of_mem _ ha', b', List.mem_cons_of_mem _ hb', heq⟩

end Pairs

namespace Parallel

namespace Settings

variable (t : Settings) (level : Nat → Nat → Bool) (first stop : Nat)

/-- Whether the clock moves at a sample behind the first one, to a level that the strobe latches. -/
def latchesAt (i : Nat) : Bool :=
  decide (first < i) && level (i - 1) t.clk != level i t.clk &&
    match t.strobe with
    | .rising => level i t.clk
    | .falling => !level i t.clk
    | .either => true

/-- The samples of `[first, stop)` that latch, in order. -/
def triggers : List Nat := (List.range' first (stop - first)).filter (t.latchesAt level first)

/-- The value on the lines at a sample: bit `k` is the level of line `k`, 0 if it is not assigned. -/
def valueAt (i : Nat) : Nat := Nat.ofBits fun k : Fin t.lines.length => t.lines[k].any (level i)

/-- The word of a trigger, which ends at the next one. -/
def wordAt (i next : Nat) : Finding :=
  ⟨i, next, word, [String.ofList (hexDigits ((t.lines.length + 3) / 4) (t.valueAt level i))]⟩

/-- All that is to be found in the samples `[first, stop)`. -/
def meaning : List Finding := eachPair (t.wordAt level) (t.triggers level first stop)

variable {level}

theorem valueAt_lt_digits (i : Nat) : t.valueAt level i < 16 ^ ((t.lines.length + 3) / 4) := by
  refine Nat.lt_of_lt_of_le (Nat.ofBits_lt_two_pow _) ?_
  rw [show 16 = 2 ^ 4 by decide, ← Nat.pow_mul]
  exact Nat.pow_le_pow_right (by decide) (by omega)

theorem busValue_eq (level : Nat → Bool) (lines : List (Option Nat)) :
    busValue level lines = Nat.ofBits fun k : Fin lines.length => lines[k].any level := by
  induction lines with
  | nil => simp [busValue]
  | cons line rest ih =>
    rw [Nat.ofBits_succ]
    cases line with
    | none => rw [busValue, ih]; rfl
    | some c => rw [busValue, ih, Nat.add_comm]; rfl

variable {first}

theorem latchesAt_of_lt {i : Nat} (h : first < i) :
    t.latchesAt level first i = t.strobe.triggered (level (i - 1) t.clk) (level i t.clk) := by
  simp only [latchesAt, h, decide_true, Bool.true_and]
  cases t.strobe <;> cases level (i - 1) t.clk <;> cases level i t.clk <;> rfl

theorem triggers_self : t.triggers level first first = [] := by simp [triggers]

theorem triggers_succ {i : Nat} (h : first ≤ i) :
    t.triggers level first (i + 1) =
      t.triggers level first i ++ if t.latchesAt level first i then [i] else [] := by
  rw [triggers, Nat.succ_sub h, List.range'_concat, List.filter_append, Nat.one_mul, Nat.add_sub_cancel' h]
  cases hi : t.latchesAt level first i <;> simp [triggers, hi]

theorem meaning_self : t.meaning level first first = [] := by rw [meaning, triggers_self]; rfl

theorem meaning_succ_of_still {i : Nat} (h : first ≤ i) (hi : t.latchesAt level first i = false) :
    t.meaning level first (i + 1) = t.meaning level first i := by
  simp [meaning, triggers_succ t h, hi]

theorem meaning_succ_of_latches {i : Nat} (h : first ≤ i) (hi : t.latchesAt level first i = true) :
    t.meaning level first (i + 1) =
      t.meaning level first i ++ ((t.triggers level first i).getLast?.map (t.wordAt level · i)).toList := by
  rw [meaning, triggers_succ t h, hi]
  exact eachPair_append_singleton _ _

theorem pairwise_triggers : (t.triggers level first stop).Pairwise (· < ·) :=
  List.Pairwise.filter _ List.pairwise_lt_range'

/-- The words between triggers that follow each other tile the time between the outer ones. -/
theorem tile_eachPair {i : Nat} {rest : List Nat} (h : (i :: rest).Pairwise (· < ·)) :
    Finding.Tile ((i :: rest).getLast (List.cons_ne_nil _ _)) i (eachPair (t.wordAt level) (i :: rest)) := by
  induction rest generalizing i with
  | nil => rfl
  | cons j rest ih =>
    have hij : i < j := List.rel_of_pairwise_cons h (List.mem_cons_self ..)
    exact ⟨rfl, hij, ih h.tail⟩

theorem tile_meaning {a b : Nat} (ha : a ∈ (t.triggers level first stop).head?)
    (hb : b ∈ (t.triggers level first stop).getLast?) :
    Finding.Tile b a (t.meaning level first stop) := by
  have hlt : (t.triggers level first stop).Pairwise (· < ·) := t.pairwise_triggers stop
  rw [meaning]
  cases htr : t.triggers level first stop with
  | nil => rw [htr] at ha; cases ha
  | cons i rest =>
    rw [htr] at ha hb hlt
    cases ha
    rw [List.getLast?_eq_some_getLast (List.cons_ne_nil _ _)] at hb
    cases hb
    exact t.tile_eachPair hlt

end Settings

variable {t : Settings} {level : Nat → Nat → Bool} {first : Nat}

/-- A decoder before sample `i`: the word of the last trigger waits in it. -/
structure Waiting (t : Settings) (level : Nat → Nat → Bool) (first : Nat) (d : Parallel) (i : Nat) :
    Prop where
  settings : d.settings = t
  first_le : first ≤ i
  clk : d.prevClk = if i = first then none else some (level (i - 1) t.clk)
  pending : d.pending = (t.triggers level first i).getLast?.map fun s => (s, t.valueAt level s)

namespace Waiting
variable {d : Parallel} {i : Nat}

theorem start (d : Parallel) (level : Nat → Nat → Bool) (first : Nat) :
    Waiting d.settings level first d.start first where
  settings := rfl
  first_le := Nat.le_refl _
  clk := by rw [if_pos rfl]; rfl
  pending := by rw [Settings.triggers_self]; rfl

theorem clk_succ (h : Waiting t level first d i) :
    some (level i t.clk) = if i + 1 = first then none else some (level (i + 1 - 1) t.clk) := by
  have := h.first_le
  rw [if_neg (by omega), Nat.add_sub_cancel]

/-- At the first sample, and where the strobe is not triggered, a decoder only takes the clock. -/
theorem step_of_still (h : Waiting t level first d i) (hi : t.latchesAt level first i = false) :
    d.step i (level i) = ({ d with prevClk := some (level i t.clk) }, []) := by
  unfold step
  simp only [h.clk, h.settings]
  by_cases hfirst : i = first
  · rw [if_pos hfirst]
  · have hlt : first < i := by have := h.first_le; omega
    rw [t.latchesAt_of_lt hlt] at hi
    rw [if_neg hfirst]
    simp [hi]

theorem step_of_latches (h : Waiting t level first d i) (hi : t.latchesAt level first i = true) :
    d.step i (level i) = latch { d with prevClk := some (level i t.clk) } i (level i) := by
  have hlt : first < i := by simp [Settings.latchesAt] at hi; exact hi.1.1
  rw [t.latchesAt_of_lt hlt] at hi
  unfold step
  simp only [h.clk, h.settings]
  rw [if_neg (by omega : i ≠ first)]
  simp [hi]

/-- A sample puts what it adds to the meaning. -/
theorem step (h : Waiting t level first d i) (hl : 0 < t.lines.length) :
    t.meaning level first (i + 1) = t.meaning level first i ++ (d.step i (level i)).2 ∧
      Waiting t level first (d.step i (level i)).1 (i + 1) := by
  have hle := h.first_le
  cases hi : t.latchesAt level first i with
  | false =>
    rw [h.step_of_still hi, t.meaning_succ_of_still hle hi, List.append_nil]
    refine ⟨rfl, h.settings, Nat.le_succ_of_le hle, h.clk_succ, ?_⟩
    rw [t.triggers_succ hle, hi]
    simpa using h.pending
  | true =>
    have hvalue : busValue (level i) d.settings.lines = t.valueAt level i := by
      rw [h.settings]; exact Settings.busValue_eq _ _
    rw [h.step_of_latches hi, t.meaning_succ_of_latches hle hi]
    refine ⟨congrArg _ ?_, h.settings, Nat.le_succ_of_le hle, h.clk_succ, ?_⟩
    · -- the word that waits is put, up to this sample
      simp only [latch, h.pending, h.settings]
      cases (t.triggers level first i).getLast? with
      | none => rfl
      | some s => simp [Settings.wordAt, hexWord_eq hl (t.valueAt_lt_digits s)]
    · simp [latch, hvalue, t.triggers_succ hle, hi]

theorem sweep (h : Waiting t level first d i) (hl : 0 < t.lines.length) (n : Nat) :
    t.meaning level first (i + n) = t.meaning level first i ++ (Sampling.sweep level d i n).2 := by
  induction n generalizing d i with
  | zero => exact (List.append_nil _).symm
  | succ n ih =>
    obtain ⟨hout, hnext⟩ := h.step hl
    have hrest := ih hnext
    rw [Sampling.sweep, scan_succ, show i + (n + 1) = i + 1 + n by omega, hrest, hout, List.append_assoc]
    rfl

end Waiting

/-- A started decoder puts just the words that the samples mean, however they are cut into chunks, and
the words tile the time from the first trigger to the last one. -/
theorem takeAll_start_words (d : Parallel) (rate : Nat) {unitSize first : Nat} {cs : List Chunk}
    (hcut : Chunk.Contiguous unitSize first cs) (hl : 0 < d.settings.lines.length)
    (hc : ∀ c ∈ d.settings.channels, c < 8 * unitSize) :
    let level := fun i => unitBit (Chunk.joined cs) unitSize (i - first)
    let stop := first + Chunk.count cs
    (takeAll Protocol.decode (Protocol.start d rate) cs).result = .ok (d.settings.meaning level first stop) ∧
      ∀ a ∈ (d.settings.triggers level first stop).head?,
        ∀ b ∈ (d.settings.triggers level first stop).getLast?,
          Finding.Tile b a (d.settings.meaning level first stop) := by
  intro level stop
  refine ⟨?_, fun a ha b hb => d.settings.tile_meaning stop ha hb⟩
  have hsweep := (Waiting.start d level first).sweep hl (Chunk.count cs)
  rw [Settings.meaning_self, List.nil_append] at hsweep
  have hjoined := takeAll_joined hcut (Protocol.start d rate) hc
  rw [hjoined, hsweep]
  rfl

/-- Three lines, the middle one not assigned, with a cut inside of the first word. -/
theorem takeAll_start_words_sparse :
    let d : Parallel := ⟨⟨7, [some 0, none, some 2], .rising⟩, some false, some (1, 6)⟩
    let cs : List Chunk := [⟨4, #[0x80, 0, 0x87], 1⟩, ⟨7, #[0x82], 1⟩, ⟨8, #[], 1⟩, ⟨8, #[1, 0x81, 0, 0x80], 1⟩]
    (takeAll Protocol.decode (Protocol.start d 1000) cs).result = .ok [⟨6, 9, word, ["5"]⟩, ⟨9, 11, word, ["1"]⟩] ∧
      Finding.Tile 11 6 [⟨6, 9, word, ["5"]⟩, ⟨9, 11, word, ["1"]⟩] := by
  intro d cs
  have hcut : Chunk.Contiguous 1 4 cs := ⟨rfl, rfl, rfl, rfl, rfl, rfl, rfl, rfl, rfl, rfl, rfl, rfl, trivial⟩
  obtain ⟨hwords, htile⟩ := d.takeAll_start_words 1000 hcut (by decide) (by decide)
  have hmeaning : d.settings.meaning (fun i => unitBit (Chunk.joined cs) 1 (i - 4)) 4 (4 + Chunk.count cs) =
      [⟨6, 9, word, ["5"]⟩, ⟨9, 11, word, ["1"]⟩] := by decide +kernel
  rw [hmeaning] at hwords htile
  exact ⟨hwords, htile 6 (by decide +kernel) 11 (by decide +kernel)⟩

end Parallel

end LogicDecode
