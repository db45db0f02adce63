import LogicDecode.Proofs.Oversize

/-!
# What a loaded capture takes from its archive

A capture is loaded from blocks that are not compared with what the header announces. Where its sizes can be stored, a
header that can be read is loaded just if all blocks that begin before the last sample can be read, and else refused
with the cause of the first one that cannot. Then the level of a probe at a sample is high just if some
block of the probe has a high bit that falls on the sample (`Capture.levels_of_blocks`). A sample is low if no block
is long enough to hold it, and a block that is longer than the first one of all raises samples of the next.

Only if the blocks are long enough and none is too long (`Capture.Backed`), a sample has the bit that the block around
it holds.
-/

namespace LogicDecode

/-- A block is announced and begins before the last sample. -/
def Header.Needs (h : Header) (b : Nat) : Prop := b < h.blocks ∧ b * h.blockSize < h.samples

theorem Header.Needs.of_le {h : Header} {b b' : Nat} (hb : h.Needs b) (hle : b' ≤ b) : h.Needs b' :=
  ⟨Nat.lt_of_le_of_lt hle hb.1, Nat.lt_of_le_of_lt (Nat.mul_le_mul_right _ hle) hb.2⟩

theorem lt_of_packedBit {data : Bytes} {i : Nat} (h : packedBit data i = true) : i < data.size * 8 := by
  have hbyte : i / 8 < data.size := by
    by_contra hout
    rw [packedBit, Array.getElem?_eq_none (Nat.le_of_not_lt hout)] at h
    cases h
  omega

namespace Capture
variable {a : Archive} {h : Header} {c : Capture} {p b number count s : Nat} {e : CaptureError}

/-- All blocks of a probe that are needed can be read. -/
def Readable (a : Archive) (h : Header) (p : Nat) : Prop := ∀ b, h.Needs b → ∃ data, block a p b = .ok data

/-- A run holds a needed block of a probe. -/
def IsRun (a : Archive) (h : Header) (p : Nat) (r : Run) : Prop :=
  ∃ b data, h.Needs b ∧ block a p b = .ok data ∧ r = ⟨p, b * h.blockSize, data⟩

/-- The first needed block that cannot be read, in the order of the probes and then of the blocks. -/
structure Unread (a : Archive) (h : Header) (p b : Nat) (e : CaptureError) : Prop where
  probe : p < h.probes
  needed : h.Needs b
  unread : block a p b = .error e
  before : ∀ b' < b, ∃ data, block a p b' = .ok data
  probes : ∀ q < p, Readable a h q

/-- Every sample of every probe is held by the block around it, and no block reaches samples of the next one. -/
structure Backed (a : Archive) (h : Header) : Prop where
  held : ∀ p < h.probes, ∀ s < h.samples, s / h.blockSize < h.blocks ∧
    ∃ data, block a p (s / h.blockSize) = .ok data ∧ s % h.blockSize < data.size * 8
  apart : ∀ p < h.probes, ∀ b, h.Needs (b + 1) → ∀ data, block a p b = .ok data → data.size * 8 ≤ h.blockSize

theorem runsOfProbe_behind (hle : h.samples ≤ number * h.blockSize) (hword : number * h.blockSize < wordBound) :
    runsOfProbe a h p count number = .ok [] := by
  cases count with
  | zero => rfl
  | succ count =>
    have hmul : checkedMul number h.blockSize = .ok (number * h.blockSize) := checkedMul_eq_ok.2 ⟨rfl, hword⟩
    unfold runsOfProbe
    rw [hmul]
    simp only [Outcome.check, bind, Except.bind, if_pos hle, pure, Except.pure]

theorem runsOfProbe_within (hlt : number * h.blockSize < h.samples) (hword : number * h.blockSize < wordBound) :
    runsOfProbe a h p (count + 1) number = (do
      let data ← Outcome.accept (block a p number)
      let rest ← runsOfProbe a h p count (number + 1)
      return ⟨p, number * h.blockSize, data⟩ :: rest) := by
  have hmul : checkedMul number h.blockSize = .ok (number * h.blockSize) := checkedMul_eq_ok.2 ⟨rfl, hword⟩
  rw [runsOfProbe, hmul]
  simp only [Outcome.check, bind, Except.bind, if_neg (Nat.not_le.2 hlt)]

/-- The needed blocks of a probe from a number on can be read, and runs are made of just them. -/
structure RunsFrom (a : Archive) (h : Header) (p number : Nat) (rs : List Run) : Prop where
  read : ∀ b, number ≤ b → h.Needs b → ∃ data, block a p b = .ok data
  mem_iff : ∀ r, r ∈ rs ↔
    ∃ b data, number ≤ b ∧ h.Needs b ∧ block a p b = .ok data ∧ r = ⟨p, b * h.blockSize, data⟩

/-- The first needed block of a probe from a number on that cannot be read. -/
structure StopsAt (a : Archive) (h : Header) (p number b : Nat) (e : CaptureError) : Prop where
  le : number ≤ b
  needed : h.Needs b
  unread : block a p b = .error e
  before : ∀ b', number ≤ b' → b' < b → ∃ data, block a p b' = .ok data

theorem RunsFrom.nil (hnone : ∀ b, number ≤ b → ¬ h.Needs b) : RunsFrom a h p number [] := by
  refine ⟨fun b hb hneeds => absurd hneeds (hnone b hb), fun r => ⟨nofun, ?_⟩⟩
  rintro ⟨b, data, hb, hneeds, -⟩
  exact absurd hneeds (hnone b hb)

theorem RunsFrom.cons {data : Bytes} {rest : List Run} (hneeds : h.Needs number) (hblock : block a p number = .ok data)
    (hr : RunsFrom a h p (number + 1) rest) : RunsFrom a h p number (⟨p, number * h.blockSize, data⟩ :: rest) := by
  refine ⟨fun b hb hbneeds => ?_, fun r => ?_⟩
  · rcases Nat.eq_or_lt_of_le hb with rfl | hb
    · exact ⟨data, hblock⟩
    · exact hr.read b hb hbneeds
  · rw [List.mem_cons, hr.mem_iff]
    constructor
    · rintro (rfl | ⟨b, more, hb, hrun⟩)
      · exact ⟨number, data, Nat.le_refl _, hneeds, hblock, rfl⟩
      · exact ⟨b, more, Nat.le_of_succ_le hb, hrun⟩
    · rintro ⟨b, more, hb, hbneeds, hmore, rfl⟩
      rcases Nat.eq_or_lt_of_le hb with rfl | hb
      · rw [hblock] at hmore
        cases hmore
        exact .inl rfl
      · exact .inr ⟨b, more, hb, hbneeds, hmore, rfl⟩

theorem StopsAt.step {data : Bytes} (hs : StopsAt a h p (number + 1) b e) (hblock : block a p number = .ok data) :
    StopsAt a h p number b e := by
  refine ⟨Nat.le_of_succ_le hs.le, hs.needed, hs.unread, fun b' hle hlt => ?_⟩
  rcases Nat.eq_or_lt_of_le hle with rfl | hle
  · exact ⟨data, hblock⟩
  · exact hs.before b' hle hlt

/-- The needed blocks of a probe from a number on are all read, or the first one that cannot be read is the cause. -/
theorem runsOfProbe_cases (hsize : h.samples + h.blockSize ≤ wordBound) (hend : number + count = h.blocks)
    (hword : number * h.blockSize < wordBound) :
    (∃ rs, runsOfProbe a h p count number = .ok rs ∧ RunsFrom a h p number rs) ∨
      ∃ b e, runsOfProbe a h p count number = .error (.refused e) ∧ StopsAt a h p number b e := by
  induction count generalizing number with
  | zero =>
    have hnone : ∀ b, number ≤ b → ¬ h.Needs b := fun b hb hneeds => absurd hneeds.1 (by omega)
    exact .inl ⟨[], rfl, .nil hnone⟩
  | succ count ih =>
    by_cases hbehind : h.samples ≤ number * h.blockSize
    · -- all blocks that follow begin behind the last sample, too
      have hnone : ∀ b, number ≤ b → ¬ h.Needs b := fun b hb hneeds =>
        absurd (hneeds.of_le hb).2 (Nat.not_lt.2 hbehind)
      exact .inl ⟨[], runsOfProbe_behind hbehind hword, .nil hnone⟩
    · have hlt := Nat.lt_of_not_le hbehind
      have hneeds : h.Needs number := ⟨by omega, hlt⟩
      have hnext : (number + 1) * h.blockSize < wordBound := by rw [Nat.succ_mul]; omega
      rw [runsOfProbe_within hlt hword]
      cases hblock : block a p number with
      | error e =>
        have hfirst : ∀ b', number ≤ b' → b' < number → ∃ data, block a p b' = .ok data := fun b' hle hlt =>
          absurd hlt (Nat.not_lt.2 hle)
        exact .inr ⟨number, e, rfl, Nat.le_refl _, hneeds, hblock, hfirst⟩
      | ok data =>
        rcases ih (by omega) hnext with ⟨rest, hrest, hholds⟩ | ⟨b, e, hrest, hstops⟩
        · exact .inl ⟨⟨p, number * h.blockSize, data⟩ :: rest, by rw [hrest]; rfl, hholds.cons hneeds hblock⟩
        · exact .inr ⟨b, e, by rw [hrest]; rfl, hstops.step hblock⟩

/-- The runs of some probes behind others. -/
def runsFrom (a : Archive) (h : Header) (ps : List Nat) (acc : List Run) : Outcome CaptureError (List Run) :=
  ps.foldlM (fun acc probe => do
    let more ← runsOfProbe a h probe h.blocks 0
    return acc ++ more) acc

theorem runsFrom_cons {ps : List Nat} {acc : List Run} : runsFrom a h (p :: ps) acc = (do
    let more ← runsOfProbe a h p h.blocks 0
    runsFrom a h ps (acc ++ more)) := by
  rw [runsFrom, List.foldlM_cons]
  cases runsOfProbe a h p h.blocks 0 <;> rfl

/-- So it goes with the probes, one after the other. -/
theorem runsFrom_cases (hsize : h.samples + h.blockSize ≤ wordBound) (ps : List Nat) (acc : List Run) :
    (∃ rs, runsFrom a h ps acc = .ok rs ∧ (∀ p ∈ ps, Readable a h p) ∧
      ∀ r, r ∈ rs ↔ r ∈ acc ∨ ∃ p ∈ ps, IsRun a h p r) ∨
    ∃ before p after b e, runsFrom a h ps acc = .error (.refused e) ∧ ps = before ++ p :: after ∧
      (∀ q ∈ before, Readable a h q) ∧ StopsAt a h p 0 b e := by
  induction ps generalizing acc with
  | nil => exact .inl ⟨acc, rfl, nofun, fun r => by simp⟩
  | cons p ps ih =>
    rw [runsFrom_cons]
    rcases runsOfProbe_cases (a := a) (p := p) hsize (Nat.zero_add h.blocks) (by rw [Nat.zero_mul]; decide) with
      ⟨more, hmore, hholds⟩ | ⟨b, e, hmore, hstops⟩
    · have hreadable : Readable a h p := fun b hneeds => hholds.read b (Nat.zero_le b) hneeds
      have hrun : ∀ r, r ∈ more ↔ IsRun a h p r := fun r => by simp [hholds.mem_iff, IsRun]
      rw [hmore]
      rcases ih (acc ++ more) with ⟨rs, hrs, hall, hmem⟩ | ⟨before, q, after, b, e, hrs, rfl, hall, hstops⟩
      · refine .inl ⟨rs, hrs, List.forall_mem_cons.2 ⟨hreadable, hall⟩, fun r => ?_⟩
        rw [hmem, List.mem_append, hrun, or_assoc]
        simp
      · exact .inr ⟨p :: before, q, after, b, e, hrs, rfl, List.forall_mem_cons.2 ⟨hreadable, hall⟩, hstops⟩
    · exact .inr ⟨[], p, ps, b, e, by rw [hmore]; rfl, rfl, nofun, hstops⟩

theorem runs_cases (hsize : h.samples + h.blockSize ≤ wordBound) :
    (∃ rs, runs a h = .ok rs ∧ (∀ p < h.probes, Readable a h p) ∧ ∀ r, r ∈ rs ↔ ∃ p < h.probes, IsRun a h p r) ∨
    ∃ p b e, Unread a h p b e ∧ runs a h = .error (.refused e) := by
  rcases runsFrom_cases (a := a) hsize (List.range h.probes) [] with
    ⟨rs, hrs, hall, hmem⟩ | ⟨before, p, after, b, e, hrs, hps, hall, hstops⟩
  · refine .inl ⟨rs, hrs, fun p hp => hall p (List.mem_range.2 hp), fun r => ?_⟩
    simp [hmem]
  · rw [List.range_eq_range'] at hps
    obtain ⟨k, hk, rfl, hrest⟩ := List.range'_eq_append_iff.1 hps
    obtain ⟨rfl, hlt, -⟩ := List.range'_eq_cons_iff.1 hrest.symm
    exact .inr ⟨_, b, e, ⟨by omega, hstops.needed, hstops.unread, fun b' => hstops.before b' (Nat.zero_le b'),
      fun q hq => hall q (by simp; omega)⟩, hrs⟩

/-- The units of a capture with the bits of some runs. -/
def unitsOf (h : Header) (rs : List Run) : Bytes :=
  rs.foldl (weave h) (Array.replicate (h.samples * h.unitSize) 0)

@[simp] theorem size_unitsOf (rs : List Run) : (unitsOf h rs).size = h.samples * h.unitSize := by
  rw [unitsOf, size_foldl_weave, Array.size_replicate]

theorem unitBit_unitsOf {rs : List Run} (hmem : ∀ r, r ∈ rs ↔ ∃ p < h.probes, IsRun a h p r) (hp : p < h.probes) :
    unitBit (unitsOf h rs) h.unitSize s p = true ↔ s < h.samples ∧ ∃ b data, h.Needs b ∧ block a p b = .ok data ∧
      b * h.blockSize ≤ s ∧ packedBit data (s - b * h.blockSize) = true := by
  have hbits : ∀ q < h.probes, q < 8 * h.unitSize := fun q hq => by unfold Header.unitSize; omega
  have hprobes : ∀ r ∈ rs, r.probe < 8 * h.unitSize := by
    intro r hr
    obtain ⟨q, hq, b, data, -, -, rfl⟩ := (hmem r).1 hr
    exact hbits q hq
  rw [unitsOf, unitBit_foldl_weave Array.size_replicate hprobes (hbits p hp), unitBit_replicate_zero]
  simp only [Bool.false_eq_true, false_or]
  constructor
  · rintro ⟨r, hr, rfl, i, hi, rfl, hhigh⟩
    obtain ⟨q, -, b, data, hneeds, hblock, rfl⟩ := (hmem r).1 hr
    have hlt : b * h.blockSize + i < h.samples := by
      unfold Run.count at hi
      dsimp only at hi ⊢
      omega
    exact ⟨hlt, b, data, hneeds, hblock, Nat.le_add_right .., by rwa [Nat.add_sub_cancel_left]⟩
  · rintro ⟨hs, b, data, hneeds, hblock, hle, hhigh⟩
    refine ⟨⟨p, b * h.blockSize, data⟩, (hmem _).2 ⟨p, hp, b, data, hneeds, hblock, rfl⟩, rfl, s - b * h.blockSize, ?_,
      (Nat.add_sub_cancel' hle).symm, hhigh⟩
    have hin := lt_of_packedBit hhigh
    unfold Run.count
    dsimp only
    omega

/-- Where the units can be stored, a segment is made of the runs whenever these can be read. -/
theorem readSegment_eq (hpos : 0 < h.unitSize) (hfits : h.samples * h.unitSize < storageBound) :
    readSegment a h = (runs a h).map fun rs => ⟨h.unitSize, h.rate, 0.0, unitsOf h rs, hpos⟩ := by
  have hmul : checkedMul h.samples h.unitSize = .ok (h.samples * h.unitSize) :=
    checkedMul_eq_ok.2 ⟨rfl, Nat.lt_trans hfits (by decide)⟩
  unfold readSegment
  rw [hmul]
  simp only [Outcome.check, bind, Except.bind, if_neg (Nat.not_le.2 hfits)]
  cases hr : runs a h with
  | error e => rfl
  | ok rs =>
    have hempty : Segment.empty h.unitSize h.rate 0.0 = .ok ⟨h.unitSize, h.rate, 0.0, #[], hpos⟩ := dif_pos hpos
    have happend : Segment.append ⟨h.unitSize, h.rate, 0.0, #[], hpos⟩ (unitsOf h rs) =
        .ok ⟨h.unitSize, h.rate, 0.0, unitsOf h rs, hpos⟩ :=
      Segment.append_eq_ok.2 ⟨by rw [size_unitsOf, Nat.mul_mod_left], by simp⟩
    show Segment.ofData h.unitSize h.rate 0.0 (unitsOf h rs) = _
    simp [Segment.ofData, hempty, happend, Outcome.check, Outcome.accept, bind, Except.bind, Except.map]

theorem bounds_of_readHeader (hfirst : ∀ data, block a 0 0 = .ok data → data.size < storageBound)
    (hread : readHeader a = .ok h) :
    0 < h.probes ∧ 24 * h.probes < storageBound ∧ h.blockSize < 8 * storageBound := by
  unfold readHeader at hread
  obtain ⟨text, htext, hread⟩ := exists_of_bind hread
  obtain ⟨probes, samples, blocks, hc⟩ :=
    HeaderFields.exists_complete (f := .ofText text) fun e he => by rw [hread] at he; cases he
  obtain ⟨h', rfl, rfl, hblock, hheader⟩ := hc.exists_header
  rw [hheader] at hread
  split at hread
  · cases hread
  · rename_i hnames
    cases hread
    refine ⟨hc.probes_pos, Nat.lt_of_not_le hnames, ?_⟩
    rcases hblock with hzero | ⟨size, hsize, hblock⟩
    · rw [hzero]; decide
    · obtain ⟨data, hdata, rfl⟩ := exists_of_map (x := block a 0 0) hsize
      have := hfirst data hdata
      omega

theorem sizes_of_ofArchive (hfirst : ∀ data, block a 0 0 = .ok data → data.size < storageBound)
    (hc : ofArchive a = .ok c) :
    readHeader a = .ok c.header ∧ sizeFault? c.header.probes c.header.samples = none := by
  obtain ⟨h, hread, hsegment⟩ := exists_of_bind hc
  obtain ⟨segment, hsegment, hc⟩ := exists_of_bind hsegment
  cases hc
  obtain ⟨hprobes, hnames, hblock⟩ := bounds_of_readHeader hfirst hread
  refine ⟨hread, Option.eq_none_iff_forall_ne_some.2 fun f hf => ?_⟩
  rw [(readSegment_fault_iff (a := a) hprobes hnames hblock).2 hf] at hsegment
  cases hsegment

/-- A header that can be read, and whose sizes can be stored, makes a capture of the runs, or the first needed block
that cannot be read is the cause why not. -/
theorem ofArchive_cases (hfirst : ∀ data, block a 0 0 = .ok data → data.size < storageBound)
    (hread : readHeader a = .ok h) (hfits : sizeFault? h.probes h.samples = none) :
    (∃ rs, (∃ hpos, ofArchive a = .ok ⟨h, ⟨h.unitSize, h.rate, 0.0, unitsOf h rs, hpos⟩⟩) ∧
      (∀ p < h.probes, Readable a h p) ∧ ∀ r, r ∈ rs ↔ ∃ p < h.probes, IsRun a h p r) ∨
    ∃ p b e, Unread a h p b e ∧ ofArchive a = .error (.refused e) := by
  obtain ⟨hprobes, hnames, hblock⟩ := bounds_of_readHeader hfirst hread
  have hpos : 0 < h.unitSize := by unfold Header.unitSize; omega
  have hunits : h.samples * h.unitSize < storageBound := by
    by_contra hlarge
    have hbound : storageBound ≤ h.samples * ((h.probes + 7) / 8) := Nat.le_of_not_lt hlarge
    rw [sizeFault?, if_neg (Nat.not_le.2 hnames), if_pos hbound] at hfits
    split at hfits <;> cases hfits
  have hsize : h.samples + h.blockSize ≤ wordBound := by
    have hsamples : h.samples ≤ h.samples * h.unitSize := Nat.le_mul_of_pos_right _ hpos
    have : 9 * storageBound ≤ wordBound := by decide
    omega
  have hload : ofArchive a = (readSegment a h).map (⟨h, ·⟩) := by
    unfold ofArchive
    rw [hread]
    cases hs : readSegment a h <;> simp [bind, Except.bind, hs, Except.map, pure, Except.pure]
  rw [hload, readSegment_eq hpos hunits]
  rcases runs_cases (a := a) hsize with ⟨rs, hrs, hrest⟩ | ⟨p, b, e, hunread, hrs⟩
  · exact .inl ⟨rs, ⟨hpos, by rw [hrs]; rfl⟩, hrest⟩
  · exact .inr ⟨p, b, e, hunread, by rw [hrs]; rfl⟩

theorem level_eq_unitBit (hp : p < c.header.probes) (hbit : p < 8 * c.segment.unitSize) (hs : s < c.segment.size) :
    c.level p s = .ok (unitBit c.segment.data c.segment.unitSize s p) := by
  have hchunk : (Chunk.mk s (c.segment.samples s (s + 1)) c.segment.unitSize).level s p =
      unitBit c.segment.data c.segment.unitSize s p :=
    Segment.level_samples (Nat.succ_le_of_lt hs) (Nat.le_refl s) (Nat.lt_succ_self s) hbit
  rw [Chunk.level, unitBit, Nat.sub_self, Nat.zero_mul, Nat.zero_add] at hchunk
  rw [level, if_neg (Nat.not_le.2 hp), if_neg (Nat.not_le.2 hs), packedBit, hchunk]

/-- In a backed archive only the block around a sample has a bit that falls on the sample. -/
theorem Backed.exists_iff (hb : Backed a h) (hp : p < h.probes) (hs : s < h.samples) :
    ∃ data, block a p (s / h.blockSize) = .ok data ∧ ((∃ b data, h.Needs b ∧ block a p b = .ok data ∧
      b * h.blockSize ≤ s ∧ packedBit data (s - b * h.blockSize) = true) ↔
        packedBit data (s % h.blockSize) = true) := by
  obtain ⟨hin, data, hdata, hlong⟩ := hb.held p hp s hs
  have hdiv : s / h.blockSize * h.blockSize + s % h.blockSize = s := Nat.div_add_mod' ..
  have hneeded : h.Needs (s / h.blockSize) := ⟨hin, by omega⟩
  refine ⟨data, hdata, ?_, fun hhigh => ⟨_, data, hneeded, hdata, by omega, ?_⟩⟩
  · rintro ⟨b, other, hneeds, hother, hle, hhigh⟩
    have hreach := lt_of_packedBit hhigh
    rcases Nat.lt_trichotomy b (s / h.blockSize) with hlt | rfl | hlt
    · -- the block ends where the next one begins, which is not behind the sample
      have hshort := hb.apart p hp b (hneeded.of_le hlt) other hother
      have hnext := Nat.mul_le_mul_right h.blockSize (Nat.succ_le_of_lt hlt)
      rw [Nat.succ_mul] at hnext
      omega
    · rw [hdata] at hother
      cases hother
      rwa [show s % h.blockSize = s - s / h.blockSize * h.blockSize by omega]
    · -- the block around the sample would reach to where this one begins
      have hshort := hb.apart p hp _ (hneeds.of_le hlt) data hdata
      have hnext := Nat.mul_le_mul_right h.blockSize (Nat.succ_le_of_lt hlt)
      rw [Nat.succ_mul] at hnext
      omega
  · rwa [show s - s / h.blockSize * h.blockSize = s % h.blockSize by omega]

/-- What loading makes of an archive. An archive is loaded just if its header can be read, its sizes can be stored and
all needed blocks can be read; of those that cannot, the first one is the cause. The level of a probe at a sample is
high just if a block of the probe has a high bit that falls on the sample. That is the bit of the block around
the sample if the archive is backed, which is not asked for. -/
theorem levels_of_blocks (hfirst : ∀ data, block a 0 0 = .ok data → data.size < storageBound) :
    ((∃ c, ofArchive a = .ok c) ↔ ∃ h, readHeader a = .ok h ∧ sizeFault? h.probes h.samples = none ∧
      ∀ p < h.probes, Readable a h p) ∧
    (∀ h, readHeader a = .ok h → sizeFault? h.probes h.samples = none → (∃ p < h.probes, ¬ Readable a h p) →
      ∃ p b e, Unread a h p b e ∧ ofArchive a = .error (.refused e)) ∧
    ∀ c, ofArchive a = .ok c → ∀ p < c.header.probes, ∀ s < c.header.samples, ∃ level, c.level p s = .ok level ∧
      (level = true ↔ ∃ b data, c.header.Needs b ∧ block a p b = .ok data ∧ b * c.header.blockSize ≤ s ∧
        packedBit data (s - b * c.header.blockSize) = true) ∧
      (Backed a c.header → ∃ data, block a p (s / c.header.blockSize) = .ok data ∧
        level = packedBit data (s % c.header.blockSize)) := by
  refine ⟨⟨?_, ?_⟩, ?_, ?_⟩
  · rintro ⟨c, hc⟩
    obtain ⟨hread, hfits⟩ := sizes_of_ofArchive hfirst hc
    rcases ofArchive_cases hfirst hread hfits with ⟨rs, -, hall, -⟩ | ⟨p, b, e, -, herror⟩
    · exact ⟨c.header, hread, hfits, hall⟩
    · rw [hc] at herror
      cases herror
  · rintro ⟨h, hread, hfits, hall⟩
    rcases ofArchive_cases hfirst hread hfits with ⟨rs, ⟨hpos, hc⟩, -⟩ | ⟨p, b, e, hunread, -⟩
    · exact ⟨_, hc⟩
    · obtain ⟨data, hdata⟩ := hall p hunread.probe b hunread.needed
      rw [hunread.unread] at hdata
      cases hdata
  · rintro h hread hfits ⟨p, hp, hnot⟩
    rcases ofArchive_cases hfirst hread hfits with ⟨rs, -, hall, -⟩ | hunread
    · exact absurd (hall p hp) hnot
    · exact hunread
  · intro c hc p hp s hs
    obtain ⟨hread, hfits⟩ := sizes_of_ofArchive hfirst hc
    rcases ofArchive_cases hfirst hread hfits with ⟨rs, ⟨hpos, hloads⟩, -, hmem⟩ | ⟨_, _, e, -, herror⟩
    · rw [hc] at hloads
      have hsegment : c.segment = ⟨c.header.unitSize, c.header.rate, 0.0, unitsOf c.header rs, hpos⟩ :=
        congrArg segment (Except.ok.inj hloads)
      have hsize : c.segment.size = c.header.samples := by
        rw [hsegment, Segment.size, size_unitsOf, Nat.mul_div_cancel _ hpos]
      have hbit : p < 8 * c.segment.unitSize := by
        rw [hsegment]
        show p < 8 * ((c.header.probes + 7) / 8)
        omega
      have hlevel := level_eq_unitBit hp hbit (hsize ▸ hs)
      rw [hsegment] at hlevel
      have hiff := (unitBit_unitsOf (s := s) hmem hp).trans (and_iff_right hs)
      refine ⟨_, hlevel, hiff, fun hb => ?_⟩
      obtain ⟨data, hdata, honly⟩ := hb.exists_iff hp hs
      exact ⟨data, hdata, Bool.eq_iff_iff.2 (hiff.trans honly)⟩
    · rw [hc] at herror
      cases herror

/-- Three probes at twenty samples in two blocks. The first block of probe 1 lacks a byte, whose samples are low, and
that of probe 2 has one too many, which raises the first sample of the second block. -/
theorem levels_of_blocks_ill_sized :
    let text := "[header]\nsamplerate = 1 MHz\ntotal samples = 20\ntotal probes = 3\ntotal blocks = 2\n"
    let a : Archive := .ofList [("header", text.toUTF8.data), ("L-0/0", #[0xff, 0xff]), ("L-0/1", #[0xff]),
      ("L-1/0", #[0xff]), ("L-1/1", #[0xff]), ("L-2/0", #[0, 0, 1]), ("L-2/1", #[0])]
    (∀ data, block a 0 0 = .ok data → data.size < storageBound) ∧ ∃ c, ofArchive a = .ok c ∧ ¬ Backed a c.header ∧
      c.level 1 8 = .ok false ∧ c.level 2 16 = .ok true := by
  intro text a
  have hfirst : ∀ data, block a 0 0 = .ok data → data.size < storageBound := by
    have hdata : block a 0 0 = .ok #[0xff, 0xff] := by decide +kernel
    intro data h
    rw [hdata] at h
    cases h
    decide
  have hsizes : (readHeader a).map (fun h => (h.probes, h.samples, h.blocks, h.blockSize)) = .ok (3, 20, 2, 16) := by
    decide +kernel
  have hlacks : block a 1 0 = .ok #[0xff] := by decide +kernel
  have hexceeds : block a 2 0 = .ok #[0, 0, 1] := by decide +kernel
  have hreadable : ∀ p < 3, ∀ b < 2, (block a p b).toOption.isSome := by decide +kernel
  obtain ⟨h, hread, hh⟩ := exists_of_map (x := readHeader a) hsizes
  simp only [Prod.mk.injEq] at hh
  obtain ⟨hprobes, hsamples, hblocks, hsize⟩ := hh
  obtain ⟨hloads, -, hlevels⟩ := levels_of_blocks hfirst
  obtain ⟨c, hc⟩ := hloads.2 ⟨h, hread, by rw [hprobes, hsamples]; decide, fun p hp b hb => by
    have hsome := hreadable p (hprobes ▸ hp) b (hblocks ▸ hb.1)
    cases hdata : block a p b with
    | ok data => exact ⟨data, rfl⟩
    | error e => rw [hdata] at hsome; cases hsome⟩
  obtain rfl : c.header = h := Except.ok.inj ((sizes_of_ofArchive hfirst hc).1.symm.trans hread)
  refine ⟨hfirst, c, hc, fun hb => ?_, ?_, ?_⟩
  · obtain ⟨-, data, hdata, hlong⟩ := hb.held 1 (by omega) 8 (by omega)
    rw [hsize, hlacks] at hdata
    cases hdata
    rw [hsize] at hlong
    exact absurd hlong (by decide)
  · obtain ⟨level, hlevel, hiff, -⟩ := hlevels c hc 1 (by omega) 8 (by omega)
    refine hlevel.trans (congrArg _ (Bool.eq_false_iff.2 fun hhigh => ?_))
    obtain ⟨b, data, -, hdata, hle, hbit⟩ := hiff.1 hhigh
    rw [hsize] at hle
    obtain rfl : b = 0 := by omega
    rw [hlacks] at hdata
    cases hdata
    rw [Nat.zero_mul] at hbit
    exact absurd hbit (by decide)
  · obtain ⟨level, hlevel, hiff, -⟩ := hlevels c hc 2 (by omega) 16 (by omega)
    rw [hlevel, hiff.2 ⟨0, _, ⟨by omega, by omega⟩, hexceeds, by omega, by rw [Nat.zero_mul]; decide⟩]

end Capture
end LogicDecode
