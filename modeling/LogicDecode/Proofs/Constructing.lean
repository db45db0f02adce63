import LogicDecode.Proofs.Conditions
import LogicDecode.Proofs.ParallelMeaning
import LogicDecode.Proofs.SpiMeaning

/-!
# Decoders of setups

Which setups the decoders of the library are made of, and how such a decoder decodes: with the settings that the
setup asks for (`Spi.requested`, `Parallel.requested`). No setup leads to a fault, for the sizes that the decoders
insist on are among the conditions.
-/

namespace LogicDecode

namespace Spi

def namedPolarity : Condition :=
  .text "cs_polarity" ["active-low", "active-high"] fun t => s!"expected active-low or active-high, got '{t}'"

def conditions : List Condition :=
  [.assigned "clk", .assignedAny ["mosi", "miso"] "mosi/miso", .flag "cpol", .flag "cpha",
    .integer "wordsize" (fun n => 1 ≤ n ∧ n ≤ 32) fun n => s!"must be 1-32, got {n}", namedPolarity]

def polarityOf (name : String) : Polarity := if name = "active-high" then .activeHigh else .activeLow

/-- The settings that a setup asks for, with its clock. -/
def requested (s : Setup) (clk : Nat) : Settings where
  clk
  mosi := s.channel? "mosi"
  miso := s.channel? "miso"
  cs := s.channel? "cs"
  mode := .ofPolarityPhase (s.intOr "cpol" 0 = 1) (s.intOr "cpha" 0 = 1)
  wordSize := (s.intOr "wordsize" 8).toNat
  polarity := polarityOf (s.textOr "cs_polarity" "active-low")

/-- Settings that a setup asks for, with a word size that decoders take. -/
structure Requested (s : Setup) (t : Settings) : Prop where
  clk : s.channel? "clk" = some t.clk
  eq : t = requested s t.clk
  wordSize : 1 ≤ t.wordSize ∧ t.wordSize ≤ 32

theorem checks_polarity (s : Setup) :
    Checks s [namedPolarity] (fun p => p = polarityOf (s.textOr "cs_polarity" "active-low")) (polarity s) := by
  refine Checks.text (by simp) (fun t ht heq => ?_) fun t ht => ?_
  · rw [heq]
    simp only [List.mem_cons, List.not_mem_nil, or_false] at ht
    rcases ht with rfl | rfl
    · exact .done rfl
    · exact .done rfl
  · split
    · simp at ht
    · simp at ht
    · rfl

theorem checks_settings? (s : Setup) : Checks s conditions (Requested s) (settings? s) := by
  unfold settings?
  refine (Checks.channel "clk").bind fun clk hclk => ?_
  dsimp only
  by_cases hdata : (s.channel? "mosi").isNone && (s.channel? "miso").isNone
  · rw [if_pos hdata]
    refine .violated fun hany => ?_
    simp [Condition.assignedAny] at hdata hany
    simp [hdata] at hany
  rw [if_neg hdata]
  refine .holding (by simpa [Condition.assignedAny, Option.isSome_iff_ne_none, Decidable.imp_iff_not_or] using hdata) ?_
  refine (Checks.flag "cpol").bind fun cpol hcpol => ?_
  refine (Checks.flag "cpha").bind fun cpha hcpha => ?_
  refine Checks.integer (by simp) (fun n hn hsize => ?_) fun n hn => ?_
  · rw [if_neg (by simp; omega)]
    refine (checks_polarity s).bind fun p hp => .done ⟨hclk, ?_, by dsimp only; omega⟩
    rw [requested, ← hcpol, ← hcpha, ← hp, hsize]
  · rw [if_pos (by simp; omega)]
    rfl

/-- Settings that differ at most in the polarity of a select line that is not there. -/
structure Settings.Alike (t t' : Settings) : Prop where
  eq : t = { t' with polarity := t.polarity }
  polarity : t'.cs.isSome → t.polarity = t'.polarity

theorem Settings.Alike.meaning_eq {t t' : Settings} (h : t.Alike t') : t.meaning = t'.meaning := by
  funext level first stop
  have hactive : t.activeAt level = t'.activeAt level := by
    rw [h.eq]
    funext i
    cases hcs : t'.cs with
    | none => simp [activeAt, hcs]
    | some c => simp [activeAt, hcs, h.polarity (by simp [hcs])]
  have hfindings : t.findingsOf level first stop = t'.findingsOf level first stop := by
    rw [h.eq]
    rfl
  rw [meaning, meaning, runs, runs, hactive, hfindings]

theorem create_of_requested {s : Setup} {t : Settings} (h : Requested s t) :
    ∃ d : Spi,
      (do
        let d ← Outcome.check (create t.clk t.mosi t.miso t.mode t.wordSize)
        return match t.cs with
          | some cs => d.withSelect cs t.polarity
          | none => d : Outcome EngineError Spi) = .ok d ∧ d.settings.Alike t := by
  rw [create, if_pos h.wordSize]
  refine ⟨_, rfl, ?_⟩
  obtain ⟨clk, mosi, miso, cs, mode, wordSize, polarity⟩ := t
  cases cs with
  | none => exact ⟨rfl, nofun⟩
  | some cs => exact ⟨rfl, fun _ => rfl⟩

theorem made (s : Setup) :
    MadeOf s conditions (fun d => ∃ t, Requested s t ∧ d.settings.Alike t) (ofSetup s) :=
  (checks_settings? s).madeOf fun t ht => by
    obtain ⟨d, hd, halike⟩ := create_of_requested ht
    exact ⟨d, hd, t, ht, halike⟩

end Spi

namespace Parallel

def namedStrobe : Condition :=
  .text "clock_edge" ["rising", "falling", "either"] fun t => s!"expected rising, falling or either, got '{t}'"

def conditions : List Condition :=
  [.assigned "clk", .assigned "d0", namedStrobe]

def strobeOf (name : String) : Strobe :=
  if name = "falling" then .falling
  else if name = "either" then .either
  else .rising

/-- The settings that a setup asks for, with its clock and its last line. -/
def requested (s : Setup) (clk top : Nat) : Settings where
  clk
  lines := (List.range (top + 1)).map fun i => s.channel? (lineId i)
  strobe := strobeOf (s.textOr "clock_edge" "rising")

/-- A line that is assigned, though none behind it is. -/
structure Last (s : Setup) (top : Nat) : Prop where
  lt : top < maxLines
  assigned : (s.channel? (lineId top)).isSome
  behind (i : Nat) (hi : top < i) (hlt : i < maxLines) : s.channel? (lineId i) = none

theorem trim_append_none (lines : List (Option Nat)) : trim (lines ++ [none]) = trim lines := by simp [trim]

theorem trim_append_some (lines : List (Option Nat)) (c : Nat) : trim (lines ++ [some c]) = lines ++ [some c] := by
  simp [trim]

/-- What is left of lines is those up to the last one assigned. -/
theorem trim_range (f : Nat → Option Nat) (h0 : (f 0).isSome) (n : Nat) :
    ∃ top ≤ n, (f top).isSome ∧ (∀ i, top < i → i ≤ n → f i = none) ∧
      trim ((List.range (n + 1)).map f) = (List.range (top + 1)).map f := by
  induction n with
  | zero =>
    obtain ⟨c, hc⟩ := Option.isSome_iff_exists.1 h0
    exact ⟨0, Nat.le_refl _, h0, fun i hi hle => by omega, by simpa [hc] using trim_append_some [] c⟩
  | succ n ih =>
    rw [List.range_succ, List.map_append, List.map_singleton]
    cases hlast : f (n + 1) with
    | some c =>
      refine ⟨n + 1, Nat.le_refl _, by simp [hlast], fun i hi hle => by omega, ?_⟩
      rw [trim_append_some, List.range_succ (n := n + 1), List.map_append, List.map_singleton, hlast]
    | none =>
      obtain ⟨top, htop, hsome, hbehind, heq⟩ := ih
      refine ⟨top, Nat.le_succ_of_le htop, hsome, fun i hi hle => ?_, by rw [trim_append_none, heq]⟩
      rcases Nat.le_succ_iff.1 hle with hle | rfl
      · exact hbehind i hi hle
      · exact hlast

/-- Settings that a setup asks for. -/
structure Requested (s : Setup) (t : Settings) : Prop where
  clk : s.channel? "clk" = some t.clk
  eq : ∃ top, Last s top ∧ t = requested s t.clk top

theorem checks_strobe (s : Setup) :
    Checks s [namedStrobe] (fun e => e = strobeOf (s.textOr "clock_edge" "rising")) (strobe s) := by
  refine Checks.text (by simp) (fun t ht heq => ?_) fun t ht => ?_
  · rw [heq]
    simp only [List.mem_cons, List.not_mem_nil, or_false] at ht
    rcases ht with rfl | rfl | rfl
    · exact .done rfl
    · exact .done rfl
    · exact .done rfl
  · split
    · simp at ht
    · simp at ht
    · simp at ht
    · rfl

theorem checks_settings? (s : Setup) : Checks s conditions (Requested s) (settings? s) := by
  unfold settings?
  refine (Checks.channel "clk").bind fun clk hclk => ?_
  refine (Checks.channel "d0").bind fun d0 hd0 => ?_
  obtain ⟨top, htop, hassigned, hbehind, htrim⟩ :=
    trim_range (fun i => s.channel? (lineId i)) (Option.isSome_iff_exists.2 ⟨d0, hd0⟩) (maxLines - 1)
  have hlast : Last s top :=
    ⟨Nat.lt_succ_of_le htop, hassigned, fun i hi hlt => hbehind i hi (Nat.le_of_lt_succ hlt)⟩
  refine (checks_strobe s).bind fun e he => .done ⟨hclk, top, hlast, ?_⟩
  rw [requested, ← he, ← htrim]
  rfl

theorem create_of_requested {s : Setup} {t : Settings} (h : Requested s t) :
    ∃ d : Parallel, create t.clk t.lines t.strobe = .ok d ∧ d.settings = t := by
  obtain ⟨top, hlast, heq⟩ := h.eq
  have hlt := hlast.lt
  refine ⟨_, if_pos ?_, rfl⟩
  rw [heq]
  simp [requested]
  omega

theorem made (s : Setup) : MadeOf s conditions (fun d => Requested s d.settings) (ofSetup s) :=
  (checks_settings? s).madeOf fun t ht => by
    obtain ⟨d, hd, rfl⟩ := create_of_requested ht
    exact ⟨d, by rw [hd]; rfl, ht⟩

end Parallel

/-- A started decoder finds what its samples mean, however they are cut into chunks. -/
def Finds {σ : Type} [Protocol σ] (d : σ) (channels : List Nat)
    (meaning : (Nat → Nat → Bool) → Nat → Nat → List Finding) : Prop :=
  ∀ (rate : Nat) {unitSize first : Nat} {cs : List Chunk}, Chunk.Contiguous unitSize first cs →
    (∀ c ∈ channels, c < 8 * unitSize) →
    (takeAll Protocol.decode (Protocol.start d rate) cs).result =
      .ok (meaning (fun i => unitBit (Chunk.joined cs) unitSize (i - first)) first (first + Chunk.count cs))

theorem Spi.finds (d : Spi) (hw : 0 < d.settings.wordSize) :
    Finds d d.settings.channels d.settings.meaning := by
  intro rate unitSize first cs hcut hc
  rw [takeAll_joined hcut (Protocol.start d rate) hc]
  exact congrArg Except.ok (d.sweep_start _ first (Chunk.count cs) hw)

theorem Parallel.sweep_start (d : Parallel) (level : Nat → Nat → Bool) (first count : Nat)
    (hl : 0 < d.settings.lines.length) :
    (Sampling.sweep level d.start first count).2 = d.settings.meaning level first (first + count) := by
  rw [(Waiting.start d level first).sweep hl count, Settings.meaning_self, List.nil_append]

theorem Parallel.finds (d : Parallel) (hl : 0 < d.settings.lines.length) :
    Finds d d.settings.channels d.settings.meaning := by
  intro rate unitSize first cs hcut hc
  rw [takeAll_joined hcut (Protocol.start d rate) hc]
  exact congrArg Except.ok (d.sweep_start _ first (Chunk.count cs) hl)

/-- A decoder of the library is made of a setup if the setup meets all conditions of that decoder, and else the
first of them that it violates, in their order, says why not; there is no fault. A decoder that is made has the
settings that the setup asks for, and finds in samples that have its channels, however they are cut into chunks, just
what such settings mean. -/
theorem decoders_made (s : Setup) :
    MadeOf s Spi.conditions
      (fun d : Spi => ∃ clk, s.channel? "clk" = some clk ∧ d.settings.Alike (Spi.requested s clk) ∧
        Finds d d.settings.channels (Spi.requested s clk).meaning)
      (Spi.ofSetup s) ∧
    MadeOf s Parallel.conditions
      (fun d : Parallel => ∃ clk top, s.channel? "clk" = some clk ∧ Parallel.Last s top ∧
        d.settings = Parallel.requested s clk top ∧
        Finds d d.settings.channels (Parallel.requested s clk top).meaning)
      (Parallel.ofSetup s) := by
  constructor
  · refine (Spi.made s).imp fun d hd => ?_
    obtain ⟨t, ht, halike⟩ := hd
    have hw : 0 < d.settings.wordSize := by
      rw [halike.eq]
      exact ht.wordSize.1
    have hfinds := d.finds hw
    rw [halike.meaning_eq, ht.eq] at hfinds
    rw [ht.eq] at halike
    exact ⟨t.clk, ht.clk, halike, hfinds⟩
  · refine (Parallel.made s).imp fun d ht => ?_
    obtain ⟨top, hlast, heq⟩ := ht.eq
    refine ⟨d.settings.clk, top, ht.clk, hlast, heq, ?_⟩
    rw [← heq]
    exact d.finds (by rw [heq]; simp [Parallel.requested])

/-- The clock phase is refused, for it comes before the word size. -/
example :
    Spi.ofSetup ⟨"spi", [("clk", 0), ("miso", 2)], [("cpha", .int 2), ("wordsize", .int 40)]⟩ =
      .error (.refused (.invalidOption "spi" "cpha" "expected 0 or 1, got 2")) := by rfl

end LogicDecode
