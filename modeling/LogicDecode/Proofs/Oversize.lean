import LogicDecode.Proofs.Assigned
import LogicDecode.Proofs.Weaving

/-!
# Captures that are announced too large

A header announces how many probes and samples there are, and nothing but storage bounds the numbers. Loading
an archive ends in a fault just if the header can be read that far and announces more than there can be storage
for (`Capture.faults_iff_oversize`). Whatever else is wrong with an archive is refused with a cause.

The invariant behind it is that a block is read only if it begins before the last sample. So the next one begins
less than a block behind the last sample (`runsOfProbe_ne_fault`), and each bit that is raised has its byte in the
units (`Run.place_lt`).
-/

namespace LogicDecode

/-- What loading ends in when a header announces some probes and samples: the names of the probes need storage,
and so do the units, whose size has to fit in 64 bits. -/
def sizeFault? (probes samples : Nat) : Option Fault :=
  if storageBound ≤ 24 * probes then some .allocation
  else if wordBound ≤ samples * ((probes + 7) / 8) then some .overflow
  else if storageBound ≤ samples * ((probes + 7) / 8) then some .allocation
  else none

namespace Outcome
variable {ε α β : Type} {f : Fault}

theorem bind_eq_fault {x : Outcome ε α} {g : α → Outcome ε β} :
    (x >>= g) = .error (.fault f) ↔ x = .error (.fault f) ∨ ∃ a, x = .ok a ∧ g a = .error (.fault f) := by
  cases x with
  | error e => simp [bind, Except.bind]
  | ok a => simp [bind, Except.bind]

theorem accept_ne_fault (x : Except ε α) : Outcome.accept x ≠ .error (.fault f) := by
  cases x <;> simp [Outcome.accept]

end Outcome

namespace HeaderFields

/-- All the values are there, the rate can be read, and so can the first block if there is one. -/
structure Complete (f : HeaderFields) (firstBlock : Except CaptureError Nat) (probes samples blocks : Nat) :
    Prop where
  probes_eq : f.probes = some probes
  samples_eq : f.samples = some samples
  blocks_eq : f.blocks = some blocks
  rate : ∃ text, f.rate = some text ∧ (sampleRate? text).isSome
  probes_pos : 0 < probes
  first : blocks ≠ 0 → ∃ size, firstBlock = .ok size

variable {f : HeaderFields} {firstBlock : Except CaptureError Nat} {probes samples blocks : Nat}

/-- Values that are not refused are complete. -/
theorem exists_complete (h : ∀ e, Header.ofFields f firstBlock ≠ .error (.refused e)) :
    ∃ probes samples blocks, f.Complete firstBlock probes samples blocks := by
  unfold Header.ofFields at h
  cases hprobes : f.probes with
  | none => rw [hprobes] at h; exact absurd rfl (h _)
  | some probes =>
  cases hrate : f.rate with
  | none => rw [hprobes, hrate] at h; exact absurd rfl (h _)
  | some text =>
  cases hsamples : f.samples with
  | none => rw [hprobes, hrate, hsamples] at h; exact absurd rfl (h _)
  | some samples =>
  cases hblocks : f.blocks with
  | none => rw [hprobes, hrate, hsamples, hblocks] at h; exact absurd rfl (h _)
  | some blocks =>
  rw [hprobes, hrate, hsamples, hblocks] at h
  simp only [Outcome.accept, Header.needed, bind, Except.bind] at h
  have hpos : probes ≠ 0 := by
    rintro rfl
    exact h _ rfl
  have hhertz : (sampleRate? text).isSome := by
    by_contra hnone
    rw [Option.not_isSome_iff_eq_none] at hnone
    rw [if_neg hpos, hnone] at h
    exact h _ rfl
  refine ⟨probes, samples, blocks, hprobes, hsamples, hblocks, ⟨text, hrate, hhertz⟩, Nat.pos_of_ne_zero hpos,
    fun hsome => ?_⟩
  obtain ⟨rate, hhertz⟩ := Option.isSome_iff_exists.1 hhertz
  rw [if_neg hpos, hhertz] at h
  cases hfirst : firstBlock with
  | ok size => exact ⟨size, rfl⟩
  | error e =>
    simp only [if_neg hsome, hfirst, Functor.map, Except.map] at h
    exact absurd rfl (h _)

/-- Of complete values a header is made, if there can be storage for the names. -/
theorem Complete.exists_header (h : f.Complete firstBlock probes samples blocks) :
    ∃ header : Header, header.probes = probes ∧ header.samples = samples ∧
      (header.blockSize = 0 ∨ ∃ size, firstBlock = .ok size ∧ header.blockSize = size * 8) ∧
      Header.ofFields f firstBlock =
        if storageBound ≤ 24 * probes then .error (.fault .allocation) else .ok header := by
  obtain ⟨text, hrate, hvalid⟩ := h.rate
  obtain ⟨rate, hhertz⟩ := Option.isSome_iff_exists.1 hvalid
  have hpos : probes ≠ 0 := Nat.pos_iff_ne_zero.1 h.probes_pos
  let header (n : Nat) : Header := ⟨probes, String.ofList text, rate, samples, blocks, n,
    (List.range probes).map f.nameOf⟩
  unfold Header.ofFields
  rw [h.probes_eq, hrate, h.samples_eq, h.blocks_eq]
  simp only [Outcome.accept, Header.needed, bind, Except.bind, if_neg hpos, hhertz]
  by_cases hblocks : blocks = 0
  · refine ⟨header 0, rfl, rfl, .inl rfl, ?_⟩
    simp only [if_pos hblocks, pure, Except.pure, header]
    split <;> rfl
  · obtain ⟨size, hfirst⟩ := h.first hblocks
    refine ⟨header (size * 8), rfl, rfl, .inr ⟨size, hfirst, rfl⟩, ?_⟩
    simp only [if_neg hblocks, hfirst, Functor.map, Except.map, pure, Except.pure, header]
    split <;> rfl

end HeaderFields

namespace Capture
variable {a : Archive} {h : Header} {probe count number : Nat} {rs : List Run} {f : Fault}

/-- The blocks of a probe begin one after the other, and the first one behind the last sample is not read. -/
theorem runsOfProbe_ne_fault (hsize : h.samples + h.blockSize ≤ wordBound) (hstart : number * h.blockSize < wordBound) :
    runsOfProbe a h probe count number ≠ .error (.fault f) := by
  induction count generalizing number with
  | zero => intro hfault; cases hfault
  | succ count ih =>
    have hmul : checkedMul number h.blockSize = .ok (number * h.blockSize) := checkedMul_eq_ok.2 ⟨rfl, hstart⟩
    unfold runsOfProbe
    rw [hmul]
    simp only [Outcome.check]
    by_cases hbehind : h.samples ≤ number * h.blockSize
    · simp [bind, Except.bind, if_pos hbehind, pure, Except.pure]
    · have hnext : (number + 1) * h.blockSize < wordBound := by rw [Nat.succ_mul]; omega
      simp only [bind, Except.bind, if_neg hbehind]
      cases Capture.block a probe number with
      | error e => simp [Outcome.accept]
      | ok data =>
        have hrest := ih hnext
        cases hr : runsOfProbe a h probe count (number + 1) with
        | ok rest => simp [Outcome.accept, pure, Except.pure]
        | error e =>
          rw [hr] at hrest
          simpa [Outcome.accept] using hrest

/-- The runs of a probe begin before the last sample. -/
theorem start_lt_of_runsOfProbe (hr : runsOfProbe a h probe count number = .ok rs) :
    ∀ r ∈ rs, r.probe = probe ∧ r.start < h.samples := by
  induction count generalizing number rs with
  | zero => cases hr; simp
  | succ count ih =>
    obtain ⟨start, -, hr⟩ := exists_of_bind hr
    split at hr
    · cases hr; simp
    · rename_i hin
      obtain ⟨data, -, hr⟩ := exists_of_bind hr
      obtain ⟨rest, hrest, hr⟩ := exists_of_bind hr
      cases hr
      intro r hmem
      rcases List.mem_cons.1 hmem with rfl | hmem
      · exact ⟨rfl, Nat.lt_of_not_le hin⟩
      · exact ih hrest r hmem

theorem of_mem_foldlM_runsOfProbe {ps : List Nat} {acc : List Run} (hr : ps.foldlM (fun acc probe => do
      let more ← runsOfProbe a h probe h.blocks 0
      return acc ++ more) acc = (.ok rs : Outcome CaptureError _)) :
    ∀ r ∈ rs, r ∈ acc ∨ r.probe ∈ ps ∧ r.start < h.samples := by
  induction ps generalizing acc with
  | nil => cases hr; exact fun r hmem => .inl hmem
  | cons p ps ih =>
    obtain ⟨acc', hfirst, hr⟩ := exists_of_bind hr
    obtain ⟨more, hmore, hacc⟩ := exists_of_bind hfirst
    cases hacc
    intro r hmem
    rcases ih hr r hmem with hin | ⟨hp, hs⟩
    · rcases List.mem_append.1 hin with hin | hin
      · exact .inl hin
      · obtain ⟨rfl, hs⟩ := start_lt_of_runsOfProbe hmore r hin
        exact .inr ⟨List.mem_cons_self .., hs⟩
    · exact .inr ⟨List.mem_cons_of_mem _ hp, hs⟩

theorem foldlM_runsOfProbe_ne_fault (hsize : h.samples + h.blockSize ≤ wordBound) {ps : List Nat} {acc : List Run} :
    ps.foldlM (fun acc probe => do
      let more ← runsOfProbe a h probe h.blocks 0
      return acc ++ more) acc ≠ (.error (.fault f) : Outcome CaptureError _) := by
  induction ps generalizing acc with
  | nil => intro hfault; cases hfault
  | cons p ps ih =>
    rw [List.foldlM_cons, Ne, Outcome.bind_eq_fault]
    rintro (hfault | ⟨acc', -, hfault⟩)
    · rcases Outcome.bind_eq_fault.1 hfault with hfault | ⟨more, -, hfault⟩
      · exact runsOfProbe_ne_fault hsize (by rw [Nat.zero_mul]; decide) hfault
      · cases hfault
    · exact ih hfault

/-- Each bit that a run raises has its byte in the units. -/
theorem Run.place_lt (hr : runs a h = .ok rs) {r : Run} (hmem : r ∈ rs) {i : Nat} (hi : i < r.count h) :
    (r.start + i) * h.unitSize + r.probe / 8 < h.samples * h.unitSize := by
  rcases of_mem_foldlM_runsOfProbe hr r hmem with hnil | ⟨hp, hs⟩
  · cases hnil
  · rw [List.mem_range] at hp
    unfold Run.count at hi
    refine byte_lt (by omega) ?_
    unfold Header.unitSize
    omega

theorem readSegment_fault_iff (hpos : 0 < h.probes) (hnames : 24 * h.probes < storageBound)
    (hblock : h.blockSize < 8 * storageBound) :
    readSegment a h = .error (.fault f) ↔ sizeFault? h.probes h.samples = some f := by
  have hunit : (h.probes + 7) / 8 = h.unitSize := rfl
  rw [sizeFault?, if_neg (Nat.not_le.2 hnames), hunit]
  unfold readSegment checkedMul
  by_cases hword : wordBound ≤ h.samples * h.unitSize
  · rw [if_neg (Nat.not_lt.2 hword), if_pos hword]
    simp [Outcome.check, bind, Except.bind]
  rw [if_pos (Nat.lt_of_not_le hword), if_neg hword]
  by_cases hstorage : storageBound ≤ h.samples * h.unitSize
  · simp [Outcome.check, bind, Except.bind, hstorage, throw, throwThe, MonadExceptOf.throw]
  · -- the units fit, so the blocks can be found, and there is a segment of the units
    have hunitpos : 0 < h.unitSize := by rw [← hunit]; omega
    have hsamples : h.samples ≤ h.samples * h.unitSize := Nat.le_mul_of_pos_right _ hunitpos
    have hsize : h.samples + h.blockSize ≤ wordBound := by
      have : 9 * storageBound ≤ wordBound := by decide
      omega
    simp only [Outcome.check, bind, Except.bind, if_neg hstorage]
    refine iff_of_false ?_ (by simp)
    cases hr : runs a h with
    | error e =>
      intro hfault
      cases hfault
      exact foldlM_runsOfProbe_ne_fault hsize hr
    | ok rs =>
      simp [Segment.ofData, Segment.empty, hunitpos, Outcome.check, Outcome.accept_ne_fault, bind, Except.bind]

/-- A header that can be read announces some probes, samples and blocks. -/
def Announces (a : Archive) (probes samples blocks : Nat) : Prop :=
  ∃ text, headerText a = .ok text ∧
    (HeaderFields.ofText text).Complete ((block a 0 0).map Array.size) probes samples blocks

theorem ofArchive_of_announces {probes samples blocks : Nat} (ha : Announces a probes samples blocks)
    (hfirst : ∀ data, block a 0 0 = .ok data → data.size < storageBound) :
    ofArchive a = .error (.fault f) ↔ sizeFault? probes samples = some f := by
  obtain ⟨text, htext, hc⟩ := ha
  obtain ⟨h, rfl, rfl, hblock, hheader⟩ := hc.exists_header
  have hread : readHeader a =
      if storageBound ≤ 24 * h.probes then .error (.fault .allocation) else .ok h := by
    unfold readHeader
    rw [htext]
    exact hheader
  unfold ofArchive
  rw [hread]
  by_cases hnames : storageBound ≤ 24 * h.probes
  · simp [sizeFault?, hnames, bind, Except.bind]
  · have hsize : h.blockSize < 8 * storageBound := by
      rcases hblock with hzero | ⟨size, hdata, hblock⟩
      · rw [hzero]; decide
      · cases hb : block a 0 0 with
        | error e => rw [hb] at hdata; cases hdata
        | ok data =>
          rw [hb] at hdata
          cases hdata
          have := hfirst data hb
          omega
    rw [if_neg hnames, ← readSegment_fault_iff (a := a) hc.probes_pos (Nat.lt_of_not_le hnames) hsize]
    refine Iff.trans (Outcome.bind_eq_fault (x := readSegment a h)) ?_
    simp [pure, Except.pure]

theorem exists_announces (h : ofArchive a = .error (.fault f)) :
    ∃ probes samples blocks, Announces a probes samples blocks := by
  have hheader : ∀ e, readHeader a ≠ .error (.refused e) := by
    intro e he
    unfold ofArchive at h
    rw [he] at h
    cases h
  unfold readHeader at hheader
  cases htext : headerText a with
  | error e => rw [htext] at hheader; exact absurd rfl (hheader e)
  | ok text =>
    rw [htext] at hheader
    obtain ⟨probes, samples, blocks, hc⟩ := HeaderFields.exists_complete hheader
    exact ⟨probes, samples, blocks, text, htext, hc⟩

/-- Loading an archive ends in a fault just if its header can be read and announces probes or samples that there can
be no storage for. Where it does not, every bit that a block raises has its byte in the units. -/
theorem faults_iff_oversize (hfirst : ∀ data, block a 0 0 = .ok data → data.size < storageBound) :
    (∀ f, ofArchive a = .error (.fault f) ↔ ∃ probes samples blocks, Announces a probes samples blocks ∧
      sizeFault? probes samples = some f) ∧
    ∀ h rs, runs a h = .ok rs → ∀ r ∈ rs, ∀ i < r.count h,
      (r.start + i) * h.unitSize + r.probe / 8 < h.samples * h.unitSize := by
  refine ⟨fun f => ⟨fun h => ?_, ?_⟩, fun h rs hr r hmem i hi => Run.place_lt hr hmem hi⟩
  · obtain ⟨probes, samples, blocks, ha⟩ := exists_announces h
    exact ⟨probes, samples, blocks, ha, (ofArchive_of_announces ha hfirst).1 h⟩
  · rintro ⟨probes, samples, blocks, ha, hf⟩
    exact (ofArchive_of_announces ha hfirst).2 hf

/-- A small archive whose header announces more samples than have numbers, and more than could be stored. -/
theorem faults_iff_oversize_samples :
    let text :=
      "[header]\nsamplerate = 1 MHz\ntotal samples = 18446744073709551615\ntotal probes = 9\ntotal blocks = 1\n"
    let a : Archive := .ofList [("header", text.toUTF8.data), ("L-0/0", #[0xff])]
    (∀ data, block a 0 0 = .ok data → data.size < storageBound) ∧ ofArchive a = .error (.fault .overflow) := by
  intro text a
  have htext : headerText a = .ok text.toList := by decide +kernel
  have hfields : HeaderFields.ofText text.toList =
      ⟨some 9, some "1 MHz".toList, some 18446744073709551615, some 1, []⟩ := by decide +kernel
  have hrate : (sampleRate? "1 MHz".toList).isSome := by decide +kernel
  have hblock : block a 0 0 = .ok #[0xff] := by decide +kernel
  have hfirst : ∀ data, block a 0 0 = .ok data → data.size < storageBound := by
    intro data hdata
    rw [hblock] at hdata
    cases hdata
    decide
  refine ⟨hfirst, ((faults_iff_oversize hfirst).1 .overflow).2 ⟨9, 18446744073709551615, 1, ⟨_, htext, ?_⟩, by decide⟩⟩
  rw [hfields, hblock]
  exact ⟨rfl, rfl, rfl, ⟨_, rfl, hrate⟩, by decide, fun _ => ⟨1, rfl⟩⟩

end Capture
end LogicDecode
