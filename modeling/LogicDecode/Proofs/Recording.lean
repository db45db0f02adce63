import LogicDecode.Proofs.Weaving

/-!
# Recordings

A `Recording` is the levels of some probes at some samples, and how they are packed into blocks. An archive that
has its blocks and a header that describes it loads as a capture in which every level is found again,
whether it is asked for by probe and sample or read from a chunk of units
(`Recording.levels_of_load`).
-/

namespace LogicDecode

/-- How many blocks of a number of bytes some samples need. -/
def blockCount (samples blockBytes : Nat) : Nat := (samples + (8 * blockBytes - 1)) / (8 * blockBytes)

theorem lt_blockCount {samples blockBytes b : Nat} (hpos : 0 < blockBytes) :
    b < blockCount samples blockBytes ↔ b * (8 * blockBytes) < samples := by
  unfold blockCount
  rw [Nat.lt_iff_add_one_le, Nat.le_div_iff_mul_le (by omega), Nat.succ_mul]
  omega

/-- The levels of some probes, and the sizes of the blocks that they are packed into. Only the last block of a
probe may be smaller than the others, as long as it holds the samples that are left. -/
structure Recording where
  probes : Nat
  samples : Nat
  /-- The level of a probe at a sample. Behind the last sample it is what fills the last block. -/
  level : Nat → Nat → Bool
  blockBytes : Nat
  /-- The bytes in the last block of a probe. -/
  lastBytes : Nat → Nat
  probes_pos : 0 < probes
  blockBytes_pos : 0 < blockBytes
  lastBytes_le : ∀ p < probes, lastBytes p ≤ blockBytes
  samples_le : ∀ p < probes, samples ≤ (blockCount samples blockBytes - 1) * (8 * blockBytes) + 8 * lastBytes p

namespace Recording
variable (r : Recording)

def blocks : Nat := blockCount r.samples r.blockBytes

/-- The bytes of a unit with one bit per probe. -/
def unitSize : Nat := (r.probes + 7) / 8

def bytesOf (p b : Nat) : Nat := if b + 1 < r.blocks then r.blockBytes else r.lastBytes p

/-- A block of a probe, packed. -/
def block (p b : Nat) : Bytes := packBits (r.level p) (b * (8 * r.blockBytes)) (r.bytesOf p b)

def runsOf (p number count : Nat) : List Capture.Run :=
  (List.range' number count).map fun b => ⟨p, b * (8 * r.blockBytes), r.block p b⟩

def runs : List Capture.Run := (List.range r.probes).flatMap fun p => r.runsOf p 0 r.blocks

structure Describes (f : HeaderFields) : Prop where
  probes : f.probes = some r.probes
  samples : f.samples = some r.samples
  blocks : f.blocks = some r.blocks
  rate : ∃ text, f.rate = some text ∧ (sampleRate? text).isSome

/-- The entries of an archive are a header of the recording and its blocks. -/
structure StoredIn (a : Archive) : Prop where
  header : ∃ text, Capture.headerText a = .ok text ∧ r.Describes (.ofText text)
  block : ∀ p < r.probes, ∀ b < r.blocks, a.read s!"L-{p}/{b}" = .ok (r.block p b)

structure Heads (h : Header) : Prop where
  probes : h.probes = r.probes
  samples : h.samples = r.samples
  blocks : h.blocks = r.blocks
  blockSize : ∀ b < r.blocks, b * h.blockSize = b * (8 * r.blockBytes)
  names : h.names.length = r.probes

variable {r} {a : Archive} {h : Header}

theorem lt_blocks {b : Nat} : b < r.blocks ↔ b * (8 * r.blockBytes) < r.samples := lt_blockCount r.blockBytes_pos

/-- The blocks of a probe hold all samples. -/
theorem exists_block {p s : Nat} (hp : p < r.probes) (hs : s < r.samples) :
    ∃ b < r.blocks, ∃ i < 8 * r.bytesOf p b, s = b * (8 * r.blockBytes) + i := by
  have hpos := r.blockBytes_pos
  obtain ⟨b, i, hi, rfl⟩ : ∃ b i, i < 8 * r.blockBytes ∧ s = b * (8 * r.blockBytes) + i := by
    refine ⟨s / (8 * r.blockBytes), s % (8 * r.blockBytes), Nat.mod_lt _ (by omega), ?_⟩
    rw [Nat.mul_comm, Nat.div_add_mod]
  have hb : b < r.blocks := lt_blocks.2 (Nat.lt_of_le_of_lt (Nat.le_add_right ..) hs)
  refine ⟨b, hb, i, ?_, rfl⟩
  unfold bytesOf
  split
  · exact hi
  · -- the last block ends behind the last sample
    have hle : r.samples ≤ (r.blocks - 1) * (8 * r.blockBytes) + 8 * r.lastBytes p := r.samples_le p hp
    obtain rfl : b = r.blocks - 1 := by omega
    omega

@[simp] theorem size_block (p b : Nat) : (r.block p b).size = r.bytesOf p b := size_packBits

theorem block_of_stored (hs : r.StoredIn a) {p b : Nat} (hp : p < r.probes) (hb : b < r.blocks) :
    Capture.block a p b = .ok (r.block p b) := by
  unfold Capture.block
  rw [hs.block p hp b hb]

/-- The first block is as large as the others, or it is the only one. -/
theorem start_eq {b : Nat} (hb : b < r.blocks) : b * (r.bytesOf 0 0 * 8) = b * (8 * r.blockBytes) := by
  cases b with
  | zero => simp
  | succ b =>
    have hfirst : r.bytesOf 0 0 = r.blockBytes := if_pos (by omega)
    rw [hfirst, Nat.mul_comm 8]

theorem exists_header_of_describes {f : HeaderFields} (hd : r.Describes f) (hnames : 24 * r.probes < storageBound)
    {first : Except CaptureError Nat} (hfirst : r.blocks ≠ 0 → first = .ok (r.bytesOf 0 0)) :
    ∃ h, Header.ofFields f first = .ok h ∧ r.Heads h := by
  obtain ⟨rateText, hrate, hvalid⟩ := hd.rate
  obtain ⟨rate, hhertz⟩ := Option.isSome_iff_exists.1 hvalid
  have hprobes : r.probes ≠ 0 := Nat.pos_iff_ne_zero.1 r.probes_pos
  have hfits : ¬ storageBound ≤ 24 * r.probes := Nat.not_le.2 hnames
  -- the size of the first block stands for that of all blocks; without blocks there is none to ask
  let h (n : Nat) : Header := ⟨r.probes, String.ofList rateText, rate, r.samples, r.blocks, n,
    (List.range r.probes).map f.nameOf⟩
  have hheads : ∀ n, (∀ b < r.blocks, b * n = b * (8 * r.blockBytes)) → r.Heads (h n) := fun n hn =>
    ⟨rfl, rfl, rfl, hn, by simp [h]⟩
  unfold Header.ofFields
  rw [hd.probes, hrate, hd.samples, hd.blocks]
  by_cases hblocks : r.blocks = 0
  · refine ⟨h 0, ?_, hheads 0 fun b hb => by omega⟩
    simp only [Outcome.accept, Header.needed, hhertz, hprobes, hfits, hblocks, bind, Except.bind, pure, Except.pure,
      if_true, if_false, h]
  · refine ⟨h (r.bytesOf 0 0 * 8), ?_, hheads _ fun b hb => start_eq hb⟩
    simp only [Outcome.accept, Header.needed, hhertz, hprobes, hfits, hblocks, hfirst hblocks, bind, Except.bind, pure,
      Except.pure, Functor.map, Except.map, if_false, h]

theorem exists_header (hs : r.StoredIn a) (hnames : 24 * r.probes < storageBound) :
    ∃ h, Capture.readHeader a = .ok h ∧ r.Heads h := by
  obtain ⟨text, htext, hd⟩ := hs.header
  have hfirst : r.blocks ≠ 0 → (Capture.block a 0 0).map Array.size = .ok (r.bytesOf 0 0) := by
    intro hblocks
    rw [block_of_stored hs r.probes_pos (Nat.pos_of_ne_zero hblocks), Except.map, size_block]
  unfold Capture.readHeader
  rw [htext]
  exact exists_header_of_describes hd hnames hfirst

theorem runsOfProbe_eq (hs : r.StoredIn a) (hh : r.Heads h) (hsamples : r.samples < wordBound) {p : Nat}
    (hp : p < r.probes) {count number : Nat} (hle : number + count ≤ r.blocks) :
    Capture.runsOfProbe a h p count number = .ok (r.runsOf p number count) := by
  induction count generalizing number with
  | zero => rfl
  | succ count ih =>
    have hnumber : number < r.blocks := by omega
    have hstart := lt_blocks.1 hnumber
    have hmul : checkedMul number h.blockSize = .ok (number * (8 * r.blockBytes)) :=
      checkedMul_eq_ok.2 ⟨(hh.blockSize number hnumber).symm, by rw [hh.blockSize number hnumber]; omega⟩
    have hin : ¬ h.samples ≤ number * (8 * r.blockBytes) := by
      rw [hh.samples]
      omega
    have hrest := ih (show number + 1 + count ≤ r.blocks by omega)
    unfold Capture.runsOfProbe
    rw [hmul, block_of_stored hs hp hnumber, hrest]
    simp only [Outcome.check, Outcome.accept, bind, Except.bind, hin, if_false, runsOf, List.range'_succ, List.map_cons,
      pure, Except.pure]

theorem foldlM_runsOfProbe (hs : r.StoredIn a) (hh : r.Heads h) (hsamples : r.samples < wordBound) {ps : List Nat}
    (hps : ∀ p ∈ ps, p < r.probes) (acc : List Capture.Run) : ps.foldlM (fun acc probe => do
        let more ← Capture.runsOfProbe a h probe h.blocks 0
        return acc ++ more) acc = (.ok (acc ++ ps.flatMap fun p => r.runsOf p 0 r.blocks) : Outcome CaptureError _) := by
  induction ps generalizing acc with
  | nil =>
    rw [List.flatMap_nil, List.append_nil]
    rfl
  | cons p ps ih =>
    have hfirst := runsOfProbe_eq hs hh hsamples (hps p (List.mem_cons_self ..)) (Nat.le_of_eq (Nat.zero_add r.blocks))
    rw [List.foldlM_cons, hh.blocks, hfirst, List.flatMap_cons, ← List.append_assoc]
    rw [hh.blocks] at ih
    exact ih (fun q hq => hps q (List.mem_cons_of_mem _ hq)) _

theorem runs_eq (hs : r.StoredIn a) (hh : r.Heads h) (hsamples : r.samples < wordBound) :
    Capture.runs a h = .ok r.runs := by
  unfold Capture.runs
  rw [hh.probes]
  exact foldlM_runsOfProbe hs hh hsamples (fun p hp => List.mem_range.1 hp) []

/-- The runs of a recording raise what is high in it. -/
theorem raises_iff (hh : r.Heads h) {s channel : Nat} : (∃ run ∈ r.runs, run.Raises h s channel) ↔
    channel < r.probes ∧ s < r.samples ∧ r.level channel s = true := by
  have hbit : ∀ {p b i : Nat}, i < 8 * r.bytesOf p b →
      packedBit (r.block p b) i = r.level p (b * (8 * r.blockBytes) + i) := fun hi => packedBit_packBits hi
  constructor
  · rintro ⟨run, hrun, rfl, i, hi, rfl, hhigh⟩
    obtain ⟨p, hp, hrun⟩ := List.mem_flatMap.1 hrun
    obtain ⟨b, -, rfl⟩ := List.mem_map.1 hrun
    simp only [Capture.Run.count, size_block, hh.samples] at hi hhigh ⊢
    rw [hbit (by omega)] at hhigh
    exact ⟨List.mem_range.1 hp, by omega, hhigh⟩
  · rintro ⟨hp, hs, hhigh⟩
    obtain ⟨b, hb, i, hi, rfl⟩ := exists_block hp hs
    refine ⟨⟨channel, b * (8 * r.blockBytes), r.block channel b⟩, ?_, rfl, i, ?_, rfl, (hbit hi).trans hhigh⟩
    · exact List.mem_flatMap.2 ⟨channel, List.mem_range.2 hp,
        List.mem_map.2 ⟨b, List.mem_range'_1.2 ⟨Nat.zero_le b, by omega⟩, rfl⟩⟩
    · simp only [Capture.Run.count, size_block, hh.samples]
      omega

theorem probe_lt {p : Nat} (hp : p < r.probes) : p < 8 * r.unitSize := by
  unfold unitSize
  omega

theorem unitSize_pos : 0 < r.unitSize := by
  have hpos := r.probes_pos
  unfold unitSize
  omega

/-- The bits of a segment's units are the levels of the probes. -/
structure Woven (r : Recording) (seg : Segment) : Prop where
  unitSize : seg.unitSize = r.unitSize
  size : seg.size = r.samples
  bits : ∀ s channel, channel < 8 * r.unitSize → (unitBit seg.data r.unitSize s channel = true ↔
    channel < r.probes ∧ s < r.samples ∧ r.level channel s = true)

theorem exists_segment (hs : r.StoredIn a) (hh : r.Heads h) (hunits : r.samples * r.unitSize < storageBound) :
    ∃ seg, Capture.readSegment a h = .ok seg ∧ r.Woven seg := by
  have hpos : 0 < r.unitSize := unitSize_pos
  have hunit : h.unitSize = r.unitSize := by rw [Header.unitSize, hh.probes, unitSize]
  have hword : r.samples * r.unitSize < wordBound := Nat.lt_trans hunits (by decide)
  have hsamples : r.samples < wordBound := Nat.lt_of_le_of_lt (Nat.le_mul_of_pos_right _ hpos) hword
  have hzero : (Array.replicate (r.samples * r.unitSize) (0 : UInt8)).size = h.samples * h.unitSize := by
    rw [Array.size_replicate, hh.samples, hunit]
  have hprobes : ∀ run ∈ r.runs, run.probe < 8 * h.unitSize := by
    intro run hrun
    obtain ⟨p, hp, hrun⟩ := List.mem_flatMap.1 hrun
    obtain ⟨b, -, rfl⟩ := List.mem_map.1 hrun
    rw [hunit]
    exact probe_lt (List.mem_range.1 hp)
  set units := r.runs.foldl (Capture.weave h) (Array.replicate (r.samples * r.unitSize) 0) with hdata
  have hsize : units.size = r.samples * r.unitSize := by
    rw [hdata, Capture.size_foldl_weave, Array.size_replicate]
  -- the segment is made empty and then given the units, so they are appended to no bytes
  refine ⟨⟨r.unitSize, h.rate, 0.0, #[] ++ units, hpos⟩, ?_, rfl, ?_, fun s channel hc => ?_⟩
  · have hmul : checkedMul h.samples r.unitSize = .ok (r.samples * r.unitSize) := by
      rw [hh.samples]
      exact checkedMul_eq_ok.2 ⟨rfl, hword⟩
    have hfits : ¬ storageBound ≤ r.samples * r.unitSize := Nat.not_le.2 hunits
    have hempty : Segment.empty r.unitSize h.rate 0.0 = .ok ⟨r.unitSize, h.rate, 0.0, #[], hpos⟩ := dif_pos hpos
    have happend : Segment.append ⟨r.unitSize, h.rate, 0.0, #[], hpos⟩ units =
        .ok ⟨r.unitSize, h.rate, 0.0, #[] ++ units, hpos⟩ :=
      Segment.append_eq_ok.2 ⟨by rw [hsize, Nat.mul_mod_left], rfl⟩
    unfold Capture.readSegment Segment.ofData
    simp only [hunit, hmul, runs_eq hs hh hsamples, Outcome.check, Outcome.accept, bind, Except.bind, hfits, if_false,
      ← hdata, hempty, happend]
  · show (#[] ++ units).size / r.unitSize = r.samples
    rw [Array.empty_append, hsize, Nat.mul_div_cancel _ hpos]
  · show unitBit (#[] ++ units) r.unitSize s channel = true ↔ _
    rw [← hunit] at hc ⊢
    rw [Array.empty_append, hdata, Capture.unitBit_foldl_weave hzero hprobes hc, unitBit_replicate_zero, raises_iff hh]
    simp

theorem exists_capture (hs : r.StoredIn a) (hnames : 24 * r.probes < storageBound)
    (hunits : r.samples * r.unitSize < storageBound) :
    ∃ c, Capture.ofArchive a = .ok c ∧ r.Heads c.header ∧ r.Woven c.segment := by
  obtain ⟨h, hheader, hh⟩ := exists_header hs hnames
  obtain ⟨seg, hsegment, hwoven⟩ := exists_segment hs hh hunits
  refine ⟨⟨h, seg⟩, ?_, hh, hwoven⟩
  unfold Capture.ofArchive
  rw [hheader]
  simp only [bind, Except.bind, hsegment, pure, Except.pure]

section Levels
variable {c : Capture} {seg : Segment} {p s : Nat}

theorem Woven.unitBit_eq (h : r.Woven seg) (hp : p < r.probes) (hs : s < r.samples) :
    unitBit seg.data seg.unitSize s p = r.level p s := by
  rw [h.unitSize]
  refine Bool.eq_iff_iff.2 ((h.bits s p (probe_lt hp)).trans ?_)
  simp [hp, hs]

theorem Woven.unitBit_low (h : r.Woven seg) (hp : r.probes ≤ p) (hunit : p < 8 * r.unitSize) :
    unitBit seg.data seg.unitSize s p = false := by
  rw [h.unitSize, Bool.eq_false_iff]
  intro hhigh
  have hlt := ((h.bits s p hunit).1 hhigh).1
  omega

theorem Woven.level_chunk (h : r.Woven seg) (hp : p < r.probes) {start stop : Nat} (hle : start ≤ s) (hlt : s < stop)
    (hstop : stop ≤ r.samples) : (Chunk.mk start (seg.samples start stop) seg.unitSize).level s p = r.level p s := by
  have hunit := probe_lt hp
  rw [← h.unitSize] at hunit
  rw [Segment.level_samples (h.size ▸ hstop) hle hlt hunit]
  exact h.unitBit_eq hp (Nat.lt_of_lt_of_le hlt hstop)

/-- A capture tells the levels of its probes at its samples, and refuses others. -/
theorem level_eq (hh : r.Heads c.header) (hw : r.Woven c.segment) (p s : Nat) : c.level p s =
    if r.probes ≤ p then .error (.invalidProbe p) else if r.samples ≤ s then .error (.outOfBounds s)
    else .ok (r.level p s) := by
  unfold Capture.level
  rw [hh.probes, hw.size]
  split
  · rfl
  split
  · rfl
  · rename_i hp hs
    -- a packed bit is a bit of the first unit
    have hfirst := hw.level_chunk (Nat.lt_of_not_le hp) (Nat.le_refl s) (Nat.lt_succ_self s) (Nat.lt_of_not_le hs)
    rw [Chunk.level, unitBit, Nat.sub_self, Nat.zero_mul, Nat.zero_add] at hfirst
    rw [packedBit, hfirst]

theorem exists_signal (hh : r.Heads c.header) (source : Nat) (hp : p < r.probes) :
    ∃ signal, (c.signals source)[p]? = some signal ∧ signal.bit = p ∧ signal.source = some source := by
  have hlt : p < c.header.names.length := hh.names.symm ▸ hp
  refine ⟨⟨c.header.names[p], p, some source⟩, ?_, rfl, rfl⟩
  simp [Capture.signals, hlt]

end Levels

/-- An archive with the blocks of a recording and a header that describes it is loaded, if there can be storage
for it. Each probe's level at each sample is told by the capture and seen on the probe's signal in any
chunk that has the sample. The other bits of the units are low, and no other probe or sample is told of. -/
theorem levels_of_load (hs : r.StoredIn a) (hnames : 24 * r.probes < storageBound)
    (hunits : r.samples * r.unitSize < storageBound) : ∃ c, Capture.ofArchive a = .ok c ∧
      c.segment.size = r.samples ∧ c.segment.unitSize = (r.probes + 7) / 8 ∧
      (∀ p s, c.level p s = if r.probes ≤ p then .error (.invalidProbe p)
        else if r.samples ≤ s then .error (.outOfBounds s) else .ok (r.level p s)) ∧
      (∀ source, (c.signals source).length = r.probes ∧ ∀ p < r.probes, ∃ signal,
        (c.signals source)[p]? = some signal ∧ signal.source = some source ∧
          ∀ start stop s, start ≤ s → s < stop → stop ≤ r.samples →
            (Chunk.mk start (c.segment.samples start stop) c.segment.unitSize).level s signal.bit = r.level p s) ∧
      ∀ s channel, r.probes ≤ channel → channel < 8 * c.segment.unitSize →
        unitBit c.segment.data c.segment.unitSize s channel = false := by
  obtain ⟨c, hc, hh, hw⟩ := exists_capture hs hnames hunits
  refine ⟨c, hc, hw.size, hw.unitSize, level_eq hh hw, fun source => ⟨?_, fun p hp => ?_⟩, fun s channel hp hunit => ?_⟩
  · simp [Capture.signals, hh.names]
  · obtain ⟨signal, hsignal, hbit, hsource⟩ := exists_signal hh source hp
    refine ⟨signal, hsignal, hsource, fun start stop s hle hlt hstop => ?_⟩
    rw [hbit]
    exact hw.level_chunk hp hle hlt hstop
  · rw [hw.unitSize] at hunit
    exact hw.unitBit_low hp hunit

/-- Ten probes at twenty samples. Of the second block there is only one byte, whose upper half is filled up. -/
theorem levels_of_load_ten_probes :
    let r : Recording := ⟨10, 20, fun p s => 20 ≤ s || (s + p) % 3 == 0, 2, fun _ => 1, by decide, by decide, by decide,
      by decide⟩
    let text := "[header]\nsamplerate = 1 MHz\ntotal samples = 20\ntotal probes = 10\ntotal blocks = 2\nprobe1 = MOSI"
    let a : Archive := .ofList (("header", text.toUTF8.data) ::
      (List.range 10).flatMap fun p => (List.range 2).map fun b => (s!"L-{p}/{b}", r.block p b))
    r.StoredIn a ∧ 24 * r.probes < storageBound ∧ r.samples * r.unitSize < storageBound ∧ ∃ c, Capture.ofArchive a = .ok c ∧
      c.segment.size = 20 ∧ c.segment.unitSize = 2 ∧ c.level 9 18 = .ok true ∧ c.level 9 19 = .ok false ∧
      c.level 10 0 = .error (.invalidProbe 10) ∧ c.level 0 20 = .error (.outOfBounds 20) := by
  intro r text a
  have htext : Capture.headerText a = .ok text.toList := by decide +kernel
  have hfields : HeaderFields.ofText text.toList =
      ⟨some 10, some "1 MHz".toList, some 20, some 2, [(1, "MOSI".toList)]⟩ := by decide +kernel
  have hrate : (sampleRate? "1 MHz".toList).isSome := by decide +kernel
  have hblocks : ∀ p < r.probes, ∀ b < r.blocks, a.read s!"L-{p}/{b}" = .ok (r.block p b) := by decide +kernel
  have hstored : r.StoredIn a :=
    ⟨⟨_, htext, hfields ▸ ⟨rfl, rfl, by decide, _, rfl, hrate⟩⟩, hblocks⟩
  have hnames : 24 * r.probes < storageBound := by decide
  have hunits : r.samples * r.unitSize < storageBound := by decide
  obtain ⟨c, hc, hsize, hunit, hlevel, -⟩ := levels_of_load hstored hnames hunits
  exact ⟨hstored, hnames, hunits, c, hc, hsize, hunit.trans (by decide), hlevel 9 18, hlevel 9 19, hlevel 10 0, hlevel 0 20⟩

end Recording
end LogicDecode
