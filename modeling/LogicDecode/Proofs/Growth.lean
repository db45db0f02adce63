import LogicDecode.Proofs.OwnUnits
import Mathlib.Algebra.GroupWithZero.Nat

/-!
# Segments that grow

A segment holds the payloads that were whole units, one behind the other (`GrownBy`); a payload that is not leaves it
as it was. What is read from it are the units of the samples asked for, as far as they are there
(`toList_samples`), however far away or inverted the range is: the ends are clamped before they are turned into
places of bytes, so no place lies behind the bytes stored (`place_le`). Ranges that adjoin are read as one
(`samples_append`), and a range that is there reads the same when the segment has grown (`samples_offerAll`).
-/

namespace LogicDecode

theorem filter_range_eq (start stop n : Nat) :
    (List.range n).filter (fun i => start ≤ i ∧ i < stop) =
      List.range' (min start (min stop n)) (min stop n - min start (min stop n)) := by
  induction n with
  | zero => simp
  | succ n ih =>
    rw [List.range_succ, List.filter_append, ih]
    by_cases h : start ≤ n ∧ n < stop
    · have hmin : min stop n = n := by omega
      have hmin' : min stop (n + 1) = n + 1 := by omega
      have hstart : min start n = start := by omega
      have hstart' : min start (n + 1) = start := by omega
      have hlen : n + 1 - start = n - start + 1 := by omega
      have hlast : start + (n - start) = n := by omega
      rw [hmin, hmin', hstart, hstart', hlen, List.range'_concat, Nat.one_mul, hlast]
      simp [h]
    · have hsame : min stop (n + 1) - min start (min stop (n + 1)) = min stop n - min start (min stop n) := by omega
      have hnone : [n].filter (fun i => start ≤ i ∧ i < stop) = [] := by simp [h]
      rw [hsame, hnone, List.append_nil]
      by_cases hempty : min stop n - min start (min stop n) = 0
      · rw [hempty]
        rfl
      · have hfirst : min start (min stop (n + 1)) = min start (min stop n) := by omega
        rw [hfirst]

/-- Units that lie behind each other. -/
theorem toList_extract_units (data : Bytes) (unitSize first count : Nat) :
    (data.extract (first * unitSize) ((first + count) * unitSize)).toList =
      (List.range' first count).flatMap fun i => (unitAt data unitSize i).toList := by
  induction count with
  | zero => simp
  | succ count ih =>
    have hfront : first * unitSize ≤ (first + count) * unitSize := Nat.mul_le_mul_right _ (Nat.le_add_right ..)
    have hback : (first + count) * unitSize ≤ (first + (count + 1)) * unitSize := Nat.mul_le_mul_right _ (by omega)
    have hcut : data.extract (first * unitSize) ((first + count) * unitSize) ++
        data.extract ((first + count) * unitSize) ((first + (count + 1)) * unitSize) =
          data.extract (first * unitSize) ((first + (count + 1)) * unitSize) := by
      rw [Array.extract_append_extract, Nat.min_eq_left hfront, Nat.max_eq_right hback]
    rw [← hcut, Array.toList_append, ih, List.range'_concat, List.flatMap_append]
    simp [unitAt, Nat.add_assoc]

namespace Segment

/-- Offers a payload; one that is refused changes nothing. -/
def offer (s : Segment) (payload : Bytes) : Segment :=
  match s.append payload with
  | .ok t => t
  | .error _ => s

def offerAll (s : Segment) (payloads : List Bytes) : Segment := payloads.foldl offer s

section Offer
variable {s : Segment} {payload : Bytes}

theorem append_of_whole (h : payload.size % s.unitSize = 0) :
    s.append payload = .ok { s with data := s.data ++ payload } := if_pos h

theorem append_of_partial (h : payload.size % s.unitSize ≠ 0) :
    s.append payload = .error (.partialUnit payload.size s.unitSize) := if_neg h

theorem offer_of_whole (h : payload.size % s.unitSize = 0) :
    s.offer payload = { s with data := s.data ++ payload } := by
  rw [offer, append_of_whole h]

theorem offer_of_partial (h : payload.size % s.unitSize ≠ 0) : s.offer payload = s := by
  rw [offer, append_of_partial h]

/-- Whatever is offered, what is there stays in front. -/
theorem exists_offerAll (s : Segment) (payloads : List Bytes) :
    ∃ more, s.offerAll payloads = { s with data := s.data ++ more } := by
  induction payloads generalizing s with
  | nil => exact ⟨#[], by simp [offerAll]⟩
  | cons p ps ih =>
    obtain ⟨more, hmore⟩ := ih (s.offer p)
    by_cases hp : p.size % s.unitSize = 0
    · rw [offer_of_whole hp] at hmore
      exact ⟨p ++ more, by simpa [offerAll, offer_of_whole hp] using hmore⟩
    · rw [offer_of_partial hp] at hmore
      exact ⟨more, by simpa [offerAll, offer_of_partial hp] using hmore⟩

end Offer

/-- The bytes of a segment are those of the payloads that were whole units. -/
structure GrownBy (unitSize : Nat) (payloads : List Bytes) (s : Segment) : Prop where
  unit : s.unitSize = unitSize
  bytes : s.data.toList = (payloads.filter fun p => p.size % unitSize = 0).flatMap Array.toList
  whole : s.data.size % unitSize = 0

namespace GrownBy
variable {unitSize : Nat} {payloads : List Bytes} {s : Segment}

theorem empty (hpos : 0 < unitSize) (rate startTime : Float) :
    GrownBy unitSize [] ⟨unitSize, rate, startTime, #[], hpos⟩ := ⟨rfl, rfl, Nat.zero_mod _⟩

theorem offer (h : GrownBy unitSize payloads s) (p : Bytes) : GrownBy unitSize (payloads ++ [p]) (s.offer p) := by
  have hunit := h.unit
  by_cases hp : p.size % s.unitSize = 0
  · rw [offer_of_whole hp]
    rw [hunit] at hp
    refine ⟨hunit, by simp [h.bytes, hp], ?_⟩
    simp [Nat.add_mod, h.whole, hp]
  · rw [offer_of_partial hp]
    rw [hunit] at hp
    exact ⟨hunit, by simp [h.bytes, hp], h.whole⟩

theorem offerAll (h : GrownBy unitSize payloads s) (more : List Bytes) :
    GrownBy unitSize (payloads ++ more) (s.offerAll more) := by
  induction more generalizing payloads s with
  | nil => rwa [List.append_nil]
  | cons p ps ih =>
    rw [List.append_cons]
    exact ih (h.offer p)

theorem size (h : GrownBy unitSize payloads s) :
    s.size = ((payloads.filter fun p => p.size % unitSize = 0).map Array.size).sum / unitSize := by
  have hbytes := congrArg List.length h.bytes
  rw [Array.length_toList, List.length_flatMap] at hbytes
  simp only [Array.length_toList] at hbytes
  rw [Segment.size, h.unit, hbytes]

end GrownBy

section Samples
variable (s : Segment)

/-- The places that a range is clamped to are in order and not behind the bytes stored. -/
theorem place_le (start stop : Nat) :
    min start (min stop s.size) * s.unitSize ≤ min stop s.size * s.unitSize ∧
      min stop s.size * s.unitSize ≤ s.data.size := by
  refine ⟨Nat.mul_le_mul_right _ (Nat.min_le_right ..), ?_⟩
  calc min stop s.size * s.unitSize
      ≤ s.size * s.unitSize := Nat.mul_le_mul_right _ (Nat.min_le_right ..)
    _ ≤ s.data.size := Nat.div_mul_le_self ..

/-- What is read are the units of the samples of the range that are there, in order. -/
theorem toList_samples (start stop : Nat) :
    (s.samples start stop).toList =
      ((List.range s.size).filter fun i => start ≤ i ∧ i < stop).flatMap fun i =>
        (unitAt s.data s.unitSize i).toList := by
  have hlast : min stop s.size = min start (min stop s.size) + (min stop s.size - min start (min stop s.size)) := by
    omega
  rw [filter_range_eq, ← toList_extract_units, ← hlast]
  rfl

theorem samples_append {a b c : Nat} (hab : a ≤ b) (hbc : b ≤ c) :
    s.samples a b ++ s.samples b c = s.samples a c := by
  have hfirst : min b (min c s.size) = min b s.size := by omega
  have hstart : min a (min c s.size) = min a (min b s.size) := by omega
  have hle : min a (min b s.size) * s.unitSize ≤ min b s.size * s.unitSize := (s.place_le a b).1
  have hle' : min b s.size * s.unitSize ≤ min c s.size * s.unitSize := Nat.mul_le_mul_right _ (by omega)
  simp only [samples]
  rw [hfirst, hstart, Array.extract_append_extract, Nat.min_eq_left hle, Nat.max_eq_right hle']

theorem size_le_offerAll (payloads : List Bytes) : s.size ≤ (s.offerAll payloads).size := by
  obtain ⟨more, hmore⟩ := s.exists_offerAll payloads
  rw [hmore]
  exact Nat.div_le_div_right (by simp)

theorem samples_offerAll (payloads : List Bytes) {start stop : Nat} (h : stop ≤ s.size) :
    (s.offerAll payloads).samples start stop = s.samples start stop := by
  have hsize := s.size_le_offerAll payloads
  have hplace := (s.place_le start stop).2
  obtain ⟨more, hmore⟩ := s.exists_offerAll payloads
  rw [hmore] at hsize ⊢
  rw [Nat.min_eq_left h] at hplace
  simp only [samples, Nat.min_eq_left h, Nat.min_eq_left (Nat.le_trans h hsize)]
  rw [Array.extract_append, Nat.sub_eq_zero_of_le hplace]
  simp

end Samples

/-- A segment that was empty, after any payloads were offered: it holds those that were whole units and refuses all
others; any range reads the units of its samples that are there, from places in the bytes stored; and what is there
reads the same for good. -/
theorem units_of_offers {unitSize : Nat} (hpos : 0 < unitSize) (rate startTime : Float) (payloads : List Bytes) :
    let s := (Segment.mk unitSize rate startTime #[] hpos).offerAll payloads
    let accepted := payloads.filter fun p => p.size % unitSize = 0
    (s.data.toList = accepted.flatMap Array.toList ∧ s.data.size % unitSize = 0 ∧
      s.size = (accepted.map Array.size).sum / unitSize) ∧
    (∀ p : Bytes, p.size % unitSize ≠ 0 →
      s.append p = .error (.partialUnit p.size unitSize) ∧ s.offer p = s) ∧
    (∀ start stop, min start (min stop s.size) * unitSize ≤ min stop s.size * unitSize ∧
      min stop s.size * unitSize ≤ s.data.size ∧
      (s.samples start stop).toList = ((List.range s.size).filter fun i => start ≤ i ∧ i < stop).flatMap fun i =>
        (unitAt s.data unitSize i).toList) ∧
    (∀ a b c, a ≤ b → b ≤ c → s.samples a b ++ s.samples b c = s.samples a c) ∧
    ∀ more, s.size ≤ (s.offerAll more).size ∧
      ∀ start stop, stop ≤ s.size → (s.offerAll more).samples start stop = s.samples start stop := by
  intro s accepted
  have h : GrownBy unitSize payloads s := (GrownBy.empty hpos rate startTime).offerAll payloads
  have hunit := h.unit
  refine ⟨⟨h.bytes, h.whole, h.size⟩, fun p hp => ?_, fun start stop => ?_, fun a b c hab hbc => s.samples_append hab hbc,
    fun more => ⟨s.size_le_offerAll more, fun start stop hstop => s.samples_offerAll more hstop⟩⟩
  · rw [← hunit] at hp ⊢
    exact ⟨append_of_partial hp, offer_of_partial hp⟩
  · have hplace := s.place_le start stop
    have hread := s.toList_samples start stop
    rw [hunit] at hplace hread
    exact ⟨hplace.1, hplace.2, hread⟩

/-- Units of two bytes, with a payload in between that is refused, and ranges that are inverted or far behind the
end. -/
theorem units_of_offers_refused_between :
    let s := (Segment.mk 2 0.0 0.0 #[] (by decide)).offerAll [#[1, 2, 3, 4], #[5], #[], #[6, 7]]
    0 < 2 ∧ s.data.toList = [1, 2, 3, 4, 6, 7] ∧ s.size = 3 ∧ s.append #[8, 9, 10] = .error (.partialUnit 3 2) ∧
      (s.samples 1 0xFFFFFFFFFFFFFFFF).toList = [3, 4, 6, 7] ∧ (s.samples 0xFFFFFFFFFFFFFFFF 1).toList = [] ∧
      s.samples 0 1 ++ s.samples 1 9 = s.samples 0 9 ∧ (s.offerAll [#[8], #[8, 9]]).samples 1 3 = s.samples 1 3 := by
  intro s
  obtain ⟨⟨hbytes, -, hsize⟩, hrefused, hread, hcut, hkept⟩ :=
    units_of_offers (show 0 < 2 by decide) 0.0 0.0 [#[1, 2, 3, 4], #[5], #[], #[6, 7]]
  have hsize : s.size = 3 := hsize.trans (by decide)
  refine ⟨by decide, hbytes.trans (by decide), hsize, (hrefused #[8, 9, 10] (by decide)).1, ?_, ?_,
    hcut 0 1 9 (by decide) (by decide), (hkept _).2 1 3 (Nat.le_of_eq hsize.symm)⟩
  · exact (hread 1 0xFFFFFFFFFFFFFFFF).2.2.trans (by decide +kernel)
  · exact (hread 0xFFFFFFFFFFFFFFFF 1).2.2.trans (by decide +kernel)

end Segment
end LogicDecode
