import LogicDecode.Proofs.Cuts
import LogicDecode.Registry

/-!
# The decoders of the library take sample by sample

The `Sampling` instances of `Spi`, `Parallel` and `Builtin`. A step never changes the settings, and it
reads no channel but those in them.
-/

namespace LogicDecode

namespace Spi

/-- The channels that are assigned. -/
def Settings.channels (t : Settings) : List Nat :=
  t.clk :: (t.mosi.toList ++ t.miso.toList ++ t.cs.toList)

variable (d : Spi) (i : Nat) (level level' : Nat → Bool)

theorem settings_select : (d.select i level).1.settings = d.settings := by
  unfold select; dsimp only; split <;> rfl

theorem settings_shift : (d.shift i level).1.settings = d.settings := by
  unfold shift; dsimp only; split <;> rfl

theorem settings_tick : (d.tick i level).1.settings = d.settings := by
  unfold tick
  split
  · rfl
  · dsimp only
    split
    · rfl
    · exact settings_shift _ _ _

theorem settings_step : (d.step i level).1.settings = d.settings :=
  (settings_tick _ _ _).trans (settings_select _ _ _)

variable {level level'}

theorem active_congr (h : ∀ c ∈ d.settings.channels, level c = level' c) :
    d.active level = d.active level' := by
  unfold active
  split
  · rename_i c hc
    rw [h c (by simp [Settings.channels, hc])]
  · rfl

theorem shiftIn_congr {line : Option Nat} (h : ∀ c ∈ line, level c = level' c) (value : Nat) :
    shiftIn value line level = shiftIn value line level' := by
  cases line with
  | none => rfl
  | some c => simp only [shiftIn, h c rfl]

theorem select_congr (h : ∀ c ∈ d.settings.channels, level c = level' c) :
    d.select i level = d.select i level' := by
  unfold select; rw [active_congr d h]

theorem shift_congr (h : ∀ c ∈ d.settings.channels, level c = level' c) :
    d.shift i level = d.shift i level' := by
  have hmosi : ∀ c ∈ d.settings.mosi, level c = level' c := fun c hc =>
    h c (by simp [Settings.channels, Option.mem_toList.2 hc])
  have hmiso : ∀ c ∈ d.settings.miso, level c = level' c := fun c hc =>
    h c (by simp [Settings.channels, Option.mem_toList.2 hc])
  unfold shift
  rw [shiftIn_congr hmosi, shiftIn_congr hmiso]

theorem tick_congr (h : ∀ c ∈ d.settings.channels, level c = level' c) :
    d.tick i level = d.tick i level' := by
  have hclk : level d.settings.clk = level' d.settings.clk := h _ (by simp [Settings.channels])
  unfold tick
  rw [active_congr d h, hclk]
  split
  · rfl
  · dsimp only
    rw [shift_congr { d with prevClk := some (level' d.settings.clk) } i h]

theorem step_congr (h : ∀ c ∈ d.settings.channels, level c = level' c) :
    d.step i level = d.step i level' := by
  unfold step
  rw [select_congr d i h]
  have h' : ∀ c ∈ (d.select i level').1.settings.channels, level c = level' c := by
    rw [settings_select]; exact h
  dsimp only
  rw [tick_congr _ i h']

end Spi

instance : Sampling Spi where
  step d i level := d.step i level
  channels d := d.settings.channels
  channels_step d i level := by rw [Spi.settings_step]
  step_congr d i _ _ h := d.step_congr i h
  decode_eq _ _ := rfl

namespace Parallel

/-- The channels that are assigned. -/
def Settings.channels (t : Settings) : List Nat := t.clk :: t.lines.filterMap id

variable (d : Parallel) (i : Nat) {level level' : Nat → Bool}

theorem settings_step (level : Nat → Bool) : (d.step i level).1.settings = d.settings := by
  unfold step
  dsimp only
  split
  · rfl
  · split <;> rfl

theorem busValue_congr {lines : List (Option Nat)}
    (h : ∀ c ∈ lines.filterMap id, level c = level' c) :
    busValue level lines = busValue level' lines := by
  induction lines with
  | nil => rfl
  | cons line rest ih =>
    cases line with
    | none => simp only [busValue, ih fun c hc => h c (by simpa using hc)]
    | some c =>
      have hrest : ∀ c' ∈ rest.filterMap id, level c' = level' c' := fun c' hc' =>
        h c' (by simp at hc' ⊢; exact .inr hc')
      simp only [busValue, ih hrest, h c (by simp)]

theorem step_congr (h : ∀ c ∈ d.settings.channels, level c = level' c) :
    d.step i level = d.step i level' := by
  have hclk : level d.settings.clk = level' d.settings.clk := h _ (by simp [Settings.channels])
  have hbus : busValue level d.settings.lines = busValue level' d.settings.lines :=
    busValue_congr fun c hc => h c (List.mem_cons_of_mem _ hc)
  unfold step latch
  dsimp only
  rw [hclk, hbus]

end Parallel

instance : Sampling Parallel where
  step d i level := d.step i level
  channels d := d.settings.channels
  channels_step d i level := by rw [Parallel.settings_step]
  step_congr d i _ _ h := d.step_congr i h
  decode_eq _ _ := rfl

theorem scan_map {σ τ : Type} (f : σ → τ) {step : σ → Nat → σ × List Finding}
    {step' : τ → Nat → τ × List Finding}
    (h : ∀ s i, step' (f s) i = (f (step s i).1, (step s i).2)) (s : σ) (sample count : Nat) :
    scan step' (f s) sample count = (f (scan step s sample count).1, (scan step s sample count).2) := by
  induction count generalizing s sample with
  | zero => rfl
  | succ n ih => rw [scan_succ, scan_succ, h, ih]

namespace Builtin

def step : Builtin → Nat → (Nat → Bool) → Builtin × List Finding
  | .spi d, i, level => (.spi (d.step i level).1, (d.step i level).2)
  | .parallel d, i, level => (.parallel (d.step i level).1, (d.step i level).2)

/-- The channels that are assigned. -/
def channels : Builtin → List Nat
  | .spi d => d.settings.channels
  | .parallel d => d.settings.channels

end Builtin

instance : Sampling Builtin where
  step := Builtin.step
  channels := Builtin.channels
  channels_step b i level := by
    cases b with
    | spi d => exact congrArg Spi.Settings.channels (d.settings_step i level)
    | parallel d => exact congrArg Parallel.Settings.channels (d.settings_step i level)
  step_congr b i _ _ h := by
    cases b with
    | spi d => simp only [Builtin.step, d.step_congr i h]
    | parallel d => simp only [Builtin.step, d.step_congr i h]
  decode_eq b c := by
    cases b with
    | spi d => rw [scan_map Builtin.spi (fun _ _ => rfl) d]; rfl
    | parallel d => rw [scan_map Builtin.parallel (fun _ _ => rfl) d]; rfl

end LogicDecode
