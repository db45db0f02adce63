import LogicDecode.Capture.Load
import LogicDecode.Proofs.Cuts
import Mathlib.Data.Nat.Bitwise

/-!
# Packing and weaving

Bits are packed into bytes least significant first, and reading such bits gives them back
(`packedBit_packBits`). A capture's runs of packed bits are woven into units: a bit of a unit is high when it
was high before or a run raises it (`unitBit_foldl_weave`).
-/

namespace LogicDecode

/-- The bits from `start` on, packed into a number of bytes. -/
def packBits (bits : Nat → Bool) (start bytes : Nat) : Bytes :=
  Array.ofFn fun k : Fin bytes => UInt8.ofNat (Nat.ofBits fun j : Fin 8 => bits (start + 8 * k + j))

section Packing
variable {bits : Nat → Bool} {start bytes i : Nat}

@[simp] theorem size_packBits : (packBits bits start bytes).size = bytes := Array.size_ofFn

theorem packedBit_packBits (h : i < 8 * bytes) : packedBit (packBits bits start bytes) i = bits (start + i) := by
  have hk : i / 8 < bytes := by omega
  have hj : i % 8 < 8 := Nat.mod_lt _ (by decide)
  have hbyte : ∀ f : Fin 8 → Bool, (UInt8.ofNat (Nat.ofBits f)).toNat = Nat.ofBits f := fun f =>
    Nat.mod_eq_of_lt (Nat.ofBits_lt_two_pow f)
  have hi : start + 8 * (i / 8) + i % 8 = start + i := by omega
  have hget : (packBits bits start bytes)[i / 8]? =
      some (UInt8.ofNat (Nat.ofBits fun j : Fin 8 => bits (start + 8 * (i / 8) + j))) := by
    rw [Array.getElem?_eq_getElem (by rw [size_packBits]; exact hk)]
    simp [packBits]
  unfold packedBit
  rw [hget]
  dsimp only [bitOfByte]
  rw [hbyte, Nat.testBit_ofBits_lt _ _ hj, hi]

end Packing

theorem bitOfByte_or {b : UInt8} {i j : Nat} (hi : i < 8) :
    bitOfByte (b ||| (1 <<< i).toUInt8) j = (bitOfByte b j || decide (i = j)) := by
  have hmask : ((1 <<< i).toUInt8).toNat = 2 ^ i := by
    have hlt : 2 ^ i < 256 := Nat.pow_lt_pow_right (by decide) hi
    rw [Nat.one_shiftLeft]
    exact Nat.mod_eq_of_lt hlt
  rw [bitOfByte, UInt8.toNat_or, Nat.testBit_or, hmask, Nat.testBit_two_pow, bitOfByte]

/-- Bytes of units lie apart unless they are the same byte of the same unit. -/
theorem byte_inj {unitSize s s' a a' : Nat} (ha : a < unitSize) (ha' : a' < unitSize)
    (h : s * unitSize + a = s' * unitSize + a') : s = s' ∧ a = a' := by
  have hpos : 0 < unitSize := Nat.lt_of_le_of_lt (Nat.zero_le a) ha
  have hdiv := congrArg (· / unitSize) h
  simp only [Nat.mul_comm _ unitSize, Nat.mul_add_div hpos, Nat.div_eq_of_lt ha, Nat.div_eq_of_lt ha',
    Nat.add_zero] at hdiv
  subst hdiv
  exact ⟨rfl, Nat.add_left_cancel h⟩

theorem unitBit_replicate_zero (n unitSize s channel : Nat) :
    unitBit (Array.replicate n 0) unitSize s channel = false := by
  unfold unitBit
  rw [Array.getElem?_replicate]
  by_cases hin : s * unitSize + channel / 8 < n
  · rw [if_pos hin]
    exact Nat.zero_testBit _
  · rw [if_neg hin]

namespace Capture
variable {h : Header} {units : Bytes} {unitSize probe n s s' channel : Nat} {r : Run} {rs : List Run}

@[simp] theorem size_raise : (raise unitSize probe units s).size = units.size := Array.size_modify

theorem unitBit_raise (hsize : units.size = n * unitSize) (hs : s < n) (hp : probe < 8 * unitSize)
    (hc : channel < 8 * unitSize) : unitBit (raise unitSize probe units s) unitSize s' channel = true ↔
      unitBit units unitSize s' channel = true ∨ s' = s ∧ channel = probe := by
  have hplace := byte_lt hs hp
  rw [← hsize] at hplace
  unfold unitBit raise
  rw [Array.getElem?_modify]
  by_cases hsame : s * unitSize + probe / 8 = s' * unitSize + channel / 8
  · obtain ⟨rfl, hbyte⟩ := byte_inj (by omega) (by omega) hsame
    rw [if_pos hsame, ← hsame, Array.getElem?_eq_getElem hplace]
    dsimp only [Functor.map, Option.map]
    rw [bitOfByte_or (Nat.mod_lt _ (by decide)), Bool.or_eq_true, decide_eq_true_eq]
    have hbit : probe % 8 = channel % 8 ↔ channel = probe := by omega
    rw [hbit]
    simp
  · have hne : ¬ (s' = s ∧ channel = probe) := by
      rintro ⟨rfl, rfl⟩
      exact hsame rfl
    rw [if_neg hsame]
    simp [hne]

/-- How many of the packed samples of a run are samples of the capture. -/
def Run.count (h : Header) (r : Run) : Nat := min (r.data.size * 8) (h.samples - r.start)

/-- A run has the sample of a probe, and it is high. -/
def Run.Raises (h : Header) (r : Run) (s channel : Nat) : Prop :=
  channel = r.probe ∧ ∃ i < r.count h, s = r.start + i ∧ packedBit r.data i = true

/-- The units when the first `k` packed samples of a run have been woven in. -/
def wovenTo (h : Header) (units : Bytes) (r : Run) (k : Nat) : Bytes :=
  (List.range k).foldl (fun units i =>
    if packedBit r.data i then raise h.unitSize r.probe units (r.start + i) else units) units

theorem wovenTo_succ (k : Nat) : wovenTo h units r (k + 1) =
    if packedBit r.data k then raise h.unitSize r.probe (wovenTo h units r k) (r.start + k)
    else wovenTo h units r k := by
  rw [wovenTo, List.range_succ, List.foldl_append]
  rfl

@[simp] theorem size_wovenTo (k : Nat) : (wovenTo h units r k).size = units.size := by
  induction k with
  | zero => rfl
  | succ k ih =>
    rw [wovenTo_succ]
    split
    · rw [size_raise, ih]
    · exact ih

theorem unitBit_wovenTo (hsize : units.size = h.samples * h.unitSize) (hp : r.probe < 8 * h.unitSize)
    (hc : channel < 8 * h.unitSize) {k : Nat} (hk : k ≤ r.count h) :
    unitBit (wovenTo h units r k) h.unitSize s channel = true ↔ unitBit units h.unitSize s channel = true ∨
      channel = r.probe ∧ ∃ i < k, s = r.start + i ∧ packedBit r.data i = true := by
  induction k with
  | zero => simp [wovenTo]
  | succ k ih =>
    have hin : r.start + k < h.samples := by
      unfold Run.count at hk
      omega
    have hbefore := ih (by omega)
    rw [wovenTo_succ, Nat.exists_lt_succ_right]
    split
    · rename_i hhigh
      rw [unitBit_raise ((size_wovenTo k).trans hsize) hin hp hc, hbefore, or_assoc, and_or_left,
        and_comm (a := s = _)]
      simp only [hhigh, and_true]
    · rename_i hlow
      simp only [hbefore, hlow, and_false, or_false, Bool.false_eq_true]

@[simp] theorem size_weave : (weave h units r).size = units.size := size_wovenTo (r.count h)

theorem unitBit_weave (hsize : units.size = h.samples * h.unitSize) (hp : r.probe < 8 * h.unitSize)
    (hc : channel < 8 * h.unitSize) : unitBit (weave h units r) h.unitSize s channel = true ↔
      unitBit units h.unitSize s channel = true ∨ r.Raises h s channel :=
  unitBit_wovenTo hsize hp hc (Nat.le_refl _)

@[simp] theorem size_foldl_weave : (rs.foldl (weave h) units).size = units.size := by
  induction rs generalizing units with
  | nil => rfl
  | cons r rs ih => rw [List.foldl_cons, ih, size_weave]

theorem unitBit_foldl_weave (hsize : units.size = h.samples * h.unitSize) (hp : ∀ r ∈ rs, r.probe < 8 * h.unitSize)
    (hc : channel < 8 * h.unitSize) : unitBit (rs.foldl (weave h) units) h.unitSize s channel = true ↔
      unitBit units h.unitSize s channel = true ∨ ∃ r ∈ rs, r.Raises h s channel := by
  induction rs generalizing units with
  | nil => simp
  | cons r rs ih =>
    have hfirst := unitBit_weave (s := s) hsize (hp r (List.mem_cons_self ..)) hc
    have hnext : (weave h units r).size = h.samples * h.unitSize := size_weave.trans hsize
    rw [List.foldl_cons, ih hnext fun r' hr' => hp r' (List.mem_cons_of_mem _ hr'), hfirst]
    simp [or_assoc]

end Capture
end LogicDecode
