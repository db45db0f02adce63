import LogicDecode.Proofs.Cuts

/-!
# Levels and the units they are read from

The level of a channel of the unit depends on the bytes of the sample's own unit and on nothing else: not on
where the unit lies, on other samples, or on where a chunk was cut (`unitBit_congr`). A channel that is no bit
of the unit is not low, though. Reading it goes on into the units behind, so what is read is a channel of a
later sample, and low only where the bytes end (`unitBit_wrap`, `Chunk.level_wrap`).
-/

namespace LogicDecode

/-- The bytes of the unit at an offset, as far as they are there. -/
def unitAt (data : Bytes) (unitSize offset : Nat) : Bytes :=
  data.extract (offset * unitSize) ((offset + 1) * unitSize)

section Units
variable {data data' more : Bytes} {unitSize offset offset' channel : Nat}

theorem unitAt_append (h : (offset + 1) * unitSize ≤ data.size) :
    unitAt (data ++ more) unitSize offset = unitAt data unitSize offset := by
  have hnone : (offset + 1) * unitSize - data.size = 0 := Nat.sub_eq_zero_of_le h
  rw [unitAt, unitAt, Array.extract_append, hnone]
  simp

theorem unitBit_unitAt (hc : channel < 8 * unitSize) :
    unitBit (unitAt data unitSize offset) unitSize 0 channel = unitBit data unitSize offset channel :=
  unitBit_extract (Nat.lt_succ_self offset) hc

/-- Equal units read alike, whatever is around them. -/
theorem unitBit_congr (hc : channel < 8 * unitSize) (h : unitAt data unitSize offset = unitAt data' unitSize offset') :
    unitBit data unitSize offset channel = unitBit data' unitSize offset' channel := by
  rw [← unitBit_unitAt hc, h, unitBit_unitAt hc]

theorem unitBit_low (h : data.size ≤ offset * unitSize) : unitBit data unitSize offset channel = false := by
  rw [unitBit, Array.getElem?_eq_none (Nat.le_trans h (Nat.le_add_right ..))]

/-- A channel behind the unit is a channel of a later unit. -/
theorem unitBit_wrap (data : Bytes) (unitSize offset channel : Nat) :
    unitBit data unitSize offset channel =
      unitBit data unitSize (offset + channel / (8 * unitSize)) (channel % (8 * unitSize)) := by
  have hbyte : (offset + channel / (8 * unitSize)) * unitSize + channel % (8 * unitSize) / 8 =
      offset * unitSize + channel / 8 := by
    rw [← Nat.div_div_eq_div_mul, Nat.mod_mul_right_div_self, Nat.add_mul, Nat.add_assoc, Nat.div_add_mod']
  have hbit : channel % (8 * unitSize) % 8 = channel % 8 := Nat.mod_mul_right_mod ..
  rw [unitBit, unitBit, hbyte, hbit]

theorem unitBit_replicate_ones (hc : channel < 8 * unitSize) :
    unitBit (Array.replicate unitSize 255) unitSize 0 channel = true := by
  have hbyte : channel / 8 < unitSize := by omega
  have hones : ∀ i < 8, bitOfByte 255 i = true := by decide
  have hget : (Array.replicate unitSize (255 : UInt8))[0 * unitSize + channel / 8]? = some 255 := by
    rw [Nat.zero_mul, Nat.zero_add, Array.getElem?_replicate, if_pos hbyte]
  rw [unitBit, hget]
  exact hones _ (Nat.mod_lt _ (by decide))

/-- A channel behind the unit changes its level when one more sample comes in. -/
theorem exists_append_raises (hpos : 0 < unitSize) (hc : 8 * unitSize ≤ channel) (offset : Nat) :
    ∃ data more : Bytes, data.size % unitSize = 0 ∧ more.size = unitSize ∧ offset < data.size / unitSize ∧
      unitAt (data ++ more) unitSize offset = unitAt data unitSize offset ∧
      unitBit data unitSize offset channel = false ∧ unitBit (data ++ more) unitSize offset channel = true := by
  have hwidth : 0 < 8 * unitSize := by omega
  have hbehind : 0 < channel / (8 * unitSize) := Nat.div_pos hc hwidth
  -- zeros up to the unit that the channel is read from
  let front : Bytes := Array.replicate ((offset + channel / (8 * unitSize)) * unitSize) 0
  have hsize : front.size = (offset + channel / (8 * unitSize)) * unitSize := Array.size_replicate
  have hcount : front.size / unitSize = offset + channel / (8 * unitSize) := by
    rw [hsize, Nat.mul_div_cancel _ hpos]
  refine ⟨front, Array.replicate unitSize 255, ?_, Array.size_replicate, by omega, unitAt_append ?_, ?_, ?_⟩
  · rw [hsize, Nat.mul_mod_left]
  · rw [hsize]
    exact Nat.mul_le_mul_right _ (by omega)
  · rw [unitBit_wrap]
    exact unitBit_low (Nat.le_of_eq hsize)
  · rw [unitBit_wrap]
    have hones : unitBit (Array.replicate unitSize 255) unitSize 0 (channel % (8 * unitSize)) = true :=
      unitBit_replicate_ones (Nat.mod_lt _ hwidth)
    rwa [← unitBit_append_right hsize, Nat.add_zero] at hones

end Units

namespace Chunk
variable {c : Chunk} {i : Nat}

/-- What a chunk of whole units reads for any channel of a sample in it. -/
theorem level_wrap (hwhole : c.data.size % c.unitSize = 0) (hi : c.start ≤ i) (channel : Nat) :
    c.level i channel = (decide (i + channel / (8 * c.unitSize) < c.stop) &&
      c.level (i + channel / (8 * c.unitSize)) (channel % (8 * c.unitSize))) := by
  have hsize := size_mul_of_whole hwhole
  have hoffset : i - c.start + channel / (8 * c.unitSize) = i + channel / (8 * c.unitSize) - c.start :=
    (Nat.sub_add_comm hi).symm
  rw [level, level, unitBit_wrap, hoffset]
  by_cases hin : i + channel / (8 * c.unitSize) < c.stop
  · rw [decide_eq_true hin, Bool.true_and]
  · rw [decide_eq_false hin, Bool.false_and]
    have hle : c.size ≤ i + channel / (8 * c.unitSize) - c.start := by
      rw [stop] at hin
      omega
    exact unitBit_low (Nat.le_trans (Nat.le_of_eq hsize.symm) (Nat.mul_le_mul_right _ hle))

theorem level?_eq_ok (hi : c.start ≤ i) (hstop : i < c.stop) {channel : Nat}
    (hbound : c.data.size + channel / 8 < wordBound) : c.level? i channel = .ok (c.level i channel) := by
  have hsub : checkedSub i c.start = .ok (i - c.start) := if_pos hi
  have hle : (i - c.start) * c.unitSize ≤ c.data.size := by
    refine Nat.le_trans (Nat.mul_le_mul_right _ ?_) (Nat.div_mul_le_self c.data.size c.unitSize)
    rw [stop, size] at hstop
    omega
  have hmul : checkedMul (i - c.start) c.unitSize = .ok ((i - c.start) * c.unitSize) :=
    checkedMul_eq_ok.2 ⟨rfl, by omega⟩
  have hadd : checkedAdd ((i - c.start) * c.unitSize) (channel / 8) = .ok ((i - c.start) * c.unitSize + channel / 8) :=
    checkedAdd_eq_ok.2 ⟨rfl, by omega⟩
  rw [level?, hsub]
  show unitBit? c.data c.unitSize (i - c.start) channel = _
  rw [unitBit?, hmul]
  show (checkedAdd ((i - c.start) * c.unitSize) (channel / 8) >>= fun _ => _) = _
  rw [hadd]
  rfl

end Chunk

/-- A level is read from the unit of its sample alone just for the channels of the unit: two buffers that agree
on the unit, wherever it lies in them, read alike, so neither growth nor cuts change what is read. Any other
channel is not low. What is read of it is a channel of a later sample, low only where the chunk has ended, and
one more sample behind the others can change it. -/
theorem level_of_own_unit {unitSize channel : Nat} (hpos : 0 < unitSize) :
    (channel < 8 * unitSize ↔ ∀ (data data' : Bytes) (offset offset' : Nat),
      unitAt data unitSize offset = unitAt data' unitSize offset' →
        unitBit data unitSize offset channel = unitBit data' unitSize offset' channel) ∧
    (8 * unitSize ≤ channel → ∀ offset, ∃ data more : Bytes, data.size % unitSize = 0 ∧ more.size = unitSize ∧
      offset < data.size / unitSize ∧ unitAt (data ++ more) unitSize offset = unitAt data unitSize offset ∧
      unitBit data unitSize offset channel = false ∧ unitBit (data ++ more) unitSize offset channel = true) ∧
    (∀ (s t : Segment) (units : Bytes) (start stop i : Nat), channel < 8 * unitSize → s.unitSize = unitSize →
      s.append units = .ok t → i < s.size → start ≤ i → i < stop → stop ≤ t.size →
        (Chunk.mk start (t.samples start stop) unitSize).level i channel = unitBit s.data unitSize i channel) ∧
    ∀ (c : Chunk) (i : Nat), c.unitSize = unitSize → c.data.size % unitSize = 0 → c.start ≤ i → i < c.stop →
      c.data.size + channel / 8 < wordBound →
        c.level? i channel = .ok (decide (i + channel / (8 * unitSize) < c.stop) &&
          c.level (i + channel / (8 * unitSize)) (channel % (8 * unitSize))) := by
  refine ⟨⟨fun hc _ _ _ _ h => unitBit_congr hc h, fun h => ?_⟩, exists_append_raises hpos, ?_, ?_⟩
  · refine Nat.lt_of_not_le fun hc => ?_
    obtain ⟨data, more, -, -, -, hunit, hlow, hhigh⟩ := exists_append_raises hpos hc 0
    rw [h _ _ _ _ hunit, hlow] at hhigh
    cases hhigh
  · rintro s t units start stop i hc rfl happend hi hstart hstop hle
    obtain ⟨hunit, -⟩ := Segment.size_append happend
    rw [← hunit] at hc ⊢
    rw [Segment.level_samples hle hstart hstop hc, Segment.level_append happend hi (hunit ▸ hc), hunit]
  · rintro c i rfl hwhole hi hstop hbound
    rw [Chunk.level?_eq_ok hi hstop hbound, Chunk.level_wrap hwhole hi]

/-- In units of one byte, channel 8 of a sample is channel 0 of the next one. -/
theorem level_of_own_unit_next_sample :
    (¬ ∀ (data data' : Bytes) (offset offset' : Nat), unitAt data 1 offset = unitAt data' 1 offset' →
      unitBit data 1 offset 8 = unitBit data' 1 offset' 8) ∧
    (Chunk.mk 5 #[0, 1] 1).level? 5 8 = .ok true ∧ (Chunk.mk 5 #[0, 1] 1).level? 6 8 = .ok false := by
  obtain ⟨hiff, -, -, hlevel⟩ := @level_of_own_unit 1 8 (by decide)
  refine ⟨fun h => absurd (hiff.2 h) (by decide), ?_, ?_⟩
  · exact (hlevel ⟨5, #[0, 1], 1⟩ 5 rfl rfl (by decide) (by decide) (by decide)).trans rfl
  · exact (hlevel ⟨5, #[0, 1], 1⟩ 6 rfl rfl (by decide) (by decide) (by decide)).trans rfl

end LogicDecode
