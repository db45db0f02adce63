import LogicDecode.Proofs.Replies
import LogicDecode.Samples.Segment
import Mathlib.Tactic.Set

/-!
# Cutting samples into chunks

Samples lie behind each other in whole units, and a channel of the unit is found inside of it. So the
level of such a channel is the same whether it is read from a chunk (`Segment.level_samples`) or from a
segment that has grown meanwhile (`Segment.level_append`).

`Sampling` is what the decoders of the library have in common: they take one sample after the other
and read a fixed set of channels. Whatever the cuts, they do what one scan does (`takeAll_joined`).
-/

namespace LogicDecode

theorem byte_lt {offset n unitSize channel : Nat} (hi : offset < n) (hc : channel < 8 * unitSize) :
    offset * unitSize + channel / 8 < n * unitSize := by
  have h1 : channel / 8 < unitSize := by omega
  have h2 : (offset + 1) * unitSize ≤ n * unitSize := Nat.mul_le_mul_right _ hi
  rw [Nat.succ_mul] at h2
  omega

theorem unitBit_append_left {data more : Bytes} {unitSize offset channel : Nat}
    (h : offset * unitSize + channel / 8 < data.size) :
    unitBit (data ++ more) unitSize offset channel = unitBit data unitSize offset channel := by
  simp only [unitBit, Array.getElem?_append_left h]

theorem unitBit_append_right {front data : Bytes} {unitSize k : Nat} (h : front.size = k * unitSize)
    (offset channel : Nat) :
    unitBit (front ++ data) unitSize (k + offset) channel = unitBit data unitSize offset channel := by
  have hle : front.size ≤ (k + offset) * unitSize + channel / 8 := by rw [Nat.add_mul]; omega
  have hsub : (k + offset) * unitSize + channel / 8 - front.size =
      offset * unitSize + channel / 8 := by rw [Nat.add_mul]; omega
  simp only [unitBit, Array.getElem?_append_right hle, hsub]

theorem unitBit_extract {data : Bytes} {unitSize start stop offset channel : Nat}
    (hi : start + offset < stop) (hc : channel < 8 * unitSize) :
    unitBit (data.extract (start * unitSize) (stop * unitSize)) unitSize offset channel =
      unitBit data unitSize (start + offset) channel := by
  have hlt := byte_lt hi hc
  have hidx : (start + offset) * unitSize + channel / 8 =
      start * unitSize + (offset * unitSize + channel / 8) := by rw [Nat.add_mul]; omega
  rw [hidx] at hlt
  simp only [unitBit, hidx, Array.getElem?_extract]
  by_cases h : offset * unitSize + channel / 8 < min (stop * unitSize) data.size - start * unitSize
  · rw [if_pos h]
  · rw [if_neg h, Array.getElem?_eq_none (by omega)]

namespace Chunk

/-- Chunks of whole units, the first one at a sample and each other one where the last one ends. -/
def Contiguous (unitSize : Nat) : Nat → List Chunk → Prop
  | _, [] => True
  | first, c :: cs =>
    c.start = first ∧ c.unitSize = unitSize ∧ c.data.size % unitSize = 0 ∧ Contiguous unitSize c.stop cs

/-- The units of all chunks, in their order. -/
def joined : List Chunk → Bytes
  | [] => #[]
  | c :: cs => c.data ++ joined cs

/-- The number of samples in all chunks. -/
def count : List Chunk → Nat
  | [] => 0
  | c :: cs => c.size + count cs

theorem size_mul_of_whole {c : Chunk} (h : c.data.size % c.unitSize = 0) :
    c.size * c.unitSize = c.data.size := Nat.div_mul_cancel (Nat.dvd_of_mod_eq_zero h)

end Chunk

namespace Segment

theorem level_append {s t : Segment} {units : Bytes} (h : s.append units = .ok t)
    {i channel : Nat} (hi : i < s.size) (hc : channel < 8 * s.unitSize) :
    unitBit t.data t.unitSize i channel = unitBit s.data s.unitSize i channel := by
  obtain ⟨-, rfl⟩ := append_eq_ok.1 h
  refine unitBit_append_left (Nat.lt_of_lt_of_le (byte_lt hi hc) ?_)
  exact Nat.div_mul_le_self ..

theorem size_append {s t : Segment} {units : Bytes} (h : s.append units = .ok t) :
    t.unitSize = s.unitSize ∧ s.size ≤ t.size := by
  obtain ⟨-, rfl⟩ := append_eq_ok.1 h
  refine ⟨rfl, Nat.div_le_div_right ?_⟩
  simp

theorem level_samples {s : Segment} {start stop i channel : Nat} (hs : stop ≤ s.size)
    (h1 : start ≤ i) (h2 : i < stop) (hc : channel < 8 * s.unitSize) :
    (Chunk.mk start (s.samples start stop) s.unitSize).level i channel =
      unitBit s.data s.unitSize i channel := by
  have hmin : min stop s.size = stop := Nat.min_eq_left hs
  have hmin' : min start stop = start := Nat.min_eq_left (by omega)
  obtain ⟨k, rfl⟩ : ∃ k, i = start + k := ⟨i - start, by omega⟩
  simp only [Chunk.level, samples, hmin, hmin', Nat.add_sub_cancel_left]
  exact unitBit_extract h2 hc

theorem size_samples {s : Segment} {start stop : Nat} (hs : stop ≤ s.size) (hle : start ≤ stop) :
    (s.samples start stop).size = (stop - start) * s.unitSize := by
  have h : s.size * s.unitSize ≤ s.data.size := Nat.div_mul_le_self ..
  have h' : stop * s.unitSize ≤ s.size * s.unitSize := Nat.mul_le_mul_right _ hs
  simp only [samples, Nat.min_eq_left hs, Nat.min_eq_left hle, Array.size_extract]
  rw [Nat.min_eq_left (by omega), Nat.sub_mul]

end Segment

section Scan
variable {σ : Type} {step step' : σ → Nat → σ × List Finding}

theorem scan_keeps (P : σ → Prop) (h : ∀ s i, P s → P (step s i).1) (s : σ) (sample count : Nat)
    (hs : P s) : P (scan step s sample count).1 := by
  induction count generalizing s sample with
  | zero => exact hs
  | succ n ih => rw [scan_succ]; exact ih _ _ (h s sample hs)

/-- Scans agree if their steps do, in the states and at the samples that they come through. -/
theorem scan_congr (P : σ → Prop) {s : σ} {sample count : Nat} (hs : P s)
    (hP : ∀ s i, P s → P (step' s i).1)
    (h : ∀ s i, P s → sample ≤ i → i < sample + count → step s i = step' s i) :
    scan step s sample count = scan step' s sample count := by
  induction count generalizing s sample with
  | zero => rfl
  | succ n ih =>
    rw [scan_succ, scan_succ, h s sample hs (Nat.le_refl _) (by omega)]
    rw [ih (hP s sample hs) fun s i hs h1 h2 => h s i hs (by omega) (by omega)]

end Scan

/-- A decoder that takes one sample after the other and reads some channels of each. -/
class Sampling (σ : Type) [Protocol σ] where
  step : σ → Nat → (Nat → Bool) → σ × List Finding
  channels : σ → List Nat
  channels_step : ∀ s i level, channels (step s i level).1 = channels s
  step_congr : ∀ s i (level level' : Nat → Bool), (∀ c ∈ channels s, level c = level' c) →
    step s i level = step s i level'
  decode_eq : ∀ s (c : Chunk), Protocol.decode s c =
    ⟨(scan (fun s i => step s i (c.level i)) s c.start c.size).1,
      .ok (scan (fun s i => step s i (c.level i)) s c.start c.size).2⟩

namespace Sampling
variable {σ : Type} [Protocol σ] [Sampling σ]

/-- Takes `count` samples with the given levels, from a sample on. -/
def sweep (level : Nat → Nat → Bool) (s : σ) (sample count : Nat) : σ × List Finding :=
  scan (fun s i => step s i (level i)) s sample count

theorem sweep_add (level : Nat → Nat → Bool) (s : σ) (sample m n : Nat) :
    sweep level s sample (m + n) =
      ((sweep level (sweep level s sample m).1 (sample + m) n).1,
        (sweep level s sample m).2 ++ (sweep level (sweep level s sample m).1 (sample + m) n).2) :=
  scan_add _ _ _ _ _

theorem channels_sweep (level : Nat → Nat → Bool) (s : σ) (sample count : Nat) :
    channels (sweep level s sample count).1 = channels s :=
  scan_keeps (fun t => channels t = channels s) (fun t i ht => (channels_step t i _).trans ht) s
    sample count rfl

theorem sweep_congr {level level' : Nat → Nat → Bool} {s : σ} {sample count : Nat}
    (h : ∀ i c, sample ≤ i → i < sample + count → c ∈ channels s → level i c = level' i c) :
    sweep level s sample count = sweep level' s sample count := by
  refine scan_congr (fun t => channels t = channels s) rfl
    (fun t i ht => (channels_step t i _).trans ht) fun t i ht h1 h2 => ?_
  exact step_congr t i _ _ fun c hc => h i c h1 h2 (ht ▸ hc)

/-- A decoder takes a chunk as it takes the samples of the whole that the chunk was cut from. -/
theorem decode_of_level {level : Nat → Nat → Bool} {s : σ} {c : Chunk}
    (h : ∀ i ch, c.start ≤ i → i < c.start + c.size → ch ∈ channels s → c.level i ch = level i ch) :
    Protocol.decode s c =
      ⟨(sweep level s c.start c.size).1, .ok (sweep level s c.start c.size).2⟩ := by
  rw [decode_eq, ← sweep_congr h]; rfl

end Sampling

/-- Cuts make no difference: chunks are taken as the samples in them are. -/
theorem takeAll_joined {σ : Type} [Protocol σ] [Sampling σ] {unitSize first : Nat} {cs : List Chunk}
    (h : Chunk.Contiguous unitSize first cs) (s : σ)
    (hc : ∀ c ∈ Sampling.channels s, c < 8 * unitSize) :
    takeAll Protocol.decode s cs =
      let level := fun i => unitBit (Chunk.joined cs) unitSize (i - first)
      ⟨(Sampling.sweep level s first (Chunk.count cs)).1,
        .ok (Sampling.sweep level s first (Chunk.count cs)).2⟩ := by
  induction cs generalizing first s with
  | nil => rfl
  | cons c cs ih =>
    obtain ⟨rfl, rfl, hwhole, hrest⟩ := h
    have hsize := Chunk.size_mul_of_whole hwhole
    set level : Nat → Nat → Bool :=
      fun i => unitBit (Chunk.joined (c :: cs)) c.unitSize (i - c.start) with hlevel
    have hhead : ∀ i ch, c.start ≤ i → i < c.start + c.size → ch ∈ Sampling.channels s →
        c.level i ch = level i ch := by
      intro i ch h1 h2 hch
      refine (unitBit_append_left ?_).symm
      rw [← hsize]
      exact byte_lt (by omega) (hc ch hch)
    set s' := (Sampling.sweep level s c.start c.size).1 with hs'
    have hchan : Sampling.channels s' = Sampling.channels s := Sampling.channels_sweep ..
    -- behind the chunk the levels are those of the chunks that follow
    have htail : Sampling.sweep (fun i => unitBit (Chunk.joined cs) c.unitSize (i - c.stop)) s'
        c.stop (Chunk.count cs) = Sampling.sweep level s' c.stop (Chunk.count cs) := by
      refine Sampling.sweep_congr fun i ch h1 h2 _ => ?_
      have hi : i - c.start = c.size + (i - c.stop) := by
        simp only [Chunk.stop] at h1 ⊢; omega
      simp only [hlevel, Chunk.joined, hi]
      exact (unitBit_append_right hsize.symm _ _).symm
    rw [takeAll_cons (Sampling.decode_of_level hhead)]
    simp only [← hs']
    rw [ih hrest s' fun ch hch => hc ch (hchan ▸ hch)]
    simp only [htail, Chunk.count, Sampling.sweep_add]
    rfl

end LogicDecode
