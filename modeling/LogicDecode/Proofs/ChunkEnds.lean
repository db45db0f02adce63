import LogicDecode.Proofs.Handing

/-!
# Where chunks end

A chunk ends a fixed number of samples behind its first one, or earlier at the count that the worker was sent off
to. The sum is taken before the count cuts it down, so it has to fit in 64 bits itself. Up to the first count it
always does, since all chunks but the first then begin behind a chunk of full size (`Phase.FullBehind`). Behind a
count that cut a chunk short it need not, and where it does not the run breaks off (`chunk_ends_of_run`).
-/

namespace LogicDecode

theorem Config.chunkSamples_lt {c : Config} (h : c.chunkBytes < wordBound) (unitSize : Nat) :
    c.chunkSamples unitSize < wordBound :=
  Nat.max_lt.2 ⟨Nat.lt_of_le_of_lt (Nat.div_le_self ..) h, by decide⟩

/-- What the phase of a worker that goes for its first count says about the chunks up to there. -/
def Phase.FullBehind (size : Nat) : Phase → Prop
  | .feeding fed count => fed = 0 ∨ size ≤ fed ∨ count ≤ fed
  | .held stop count _ => size ≤ stop ∨ count ≤ stop
  | _ => True

/-- Only in units of one byte there can be so many samples that the end of a chunk does not fit, and only for one
that begins neither at 0 nor behind a chunk of full size. -/
theorem Segment.unit_of_overflow {seg : Segment} {c : Config} {fed count : Nat} (hbytes : c.chunkBytes < wordBound)
    (hdata : 2 * seg.data.size ≤ wordBound) (hlt : fed < count) (hcount : count ≤ seg.size)
    (hover : wordBound ≤ fed + c.chunkSamples seg.unitSize) :
    seg.unitSize = 1 ∧ ¬ (Phase.feeding fed count).FullBehind (c.chunkSamples seg.unitSize) := by
  have hdiv : seg.size * seg.unitSize ≤ seg.data.size := Nat.div_mul_le_self ..
  have hsize : seg.size ≤ seg.data.size := Nat.div_le_self ..
  have hpos := seg.unitSize_pos
  refine ⟨Nat.le_antisymm (Nat.le_of_lt_succ (Nat.lt_of_not_le fun htwo => ?_)) hpos, ?_⟩
  · have hunit : seg.unitSize ≤ seg.size * seg.unitSize := Nat.le_mul_of_pos_left _ (by omega)
    have hle := c.chunkSamples_mul_le seg.unitSize
    have hsamples : seg.size * 2 ≤ seg.size * seg.unitSize := Nat.mul_le_mul_left _ htwo
    have hchunk : c.chunkSamples seg.unitSize * 2 ≤ c.chunkSamples seg.unitSize * seg.unitSize :=
      Nat.mul_le_mul_left _ htwo
    omega
  · have hchunk := Config.chunkSamples_lt hbytes seg.unitSize
    rintro (rfl | hle | hle) <;> omega

namespace Stack
variable {ε : Type} [Engine ε] {c : Config} {t t' : Stack ε} {seg seg' : Segment} {w : Worker} {n : Nat}
  {ds ds' : List Deed}

/-- Where the chunks on record end, and how they lie up to the first count. -/
structure Strides (c : Config) (t : Stack ε) (seg : Segment) (ds : List Deed) : Prop where
  ends : ∀ x ∈ sentOf ds, x.start + c.chunkSamples seg.unitSize < wordBound ∧
    ∃ count ∈ aimsOf ds, x.stop = min (x.start + c.chunkSamples seg.unitSize) count
  first : (aimsOf ds).length ≤ 1 → ∀ w, t.worker = some w → w.phase.FullBehind (c.chunkSamples seg.unitSize)

namespace Strides

omit [Engine ε] in
theorem launch {s : Stack ε} (hcomplete : s.stages.all Stage.isComplete = true) (number : Nat) (first : Segment) :
    Strides s.config (s.launch (some (number, first))).1 first [] := by
  obtain ⟨i, o, rate, heq, -⟩ := exists_launch s hcomplete number first
  rw [heq]
  refine ⟨nofun, fun _ w hw => ?_⟩
  cases hw
  trivial

theorem of_absorbs {size stop count : Nat} {sub : Submission} (h : size ≤ stop ∨ count ≤ stop)
    (ha : Absorbs t w stop count sub t') : ∀ w', t'.worker = some w' → w'.phase.FullBehind size := by
  intro w' hw'
  cases ha with
  | misfiled | broken | refused =>
    cases hw'
    trivial
  | taken =>
    cases hw'
    exact .inr h

/-- A move of a worker that goes for its first count. -/
theorem works (h : Strides c t seg ds) (hfeeds : Feeds c t seg ds n) (hw : t.worker = some w)
    (hworks : Works seg t w t') (hfew : (aimsOf (ds ++ deeds seg t t')).length ≤ 1) :
    ∀ w', t'.worker = some w' → w'.phase.FullBehind (c.chunkSamples seg.unitSize) := by
  obtain ⟨hconfig, haims⟩ := hfeeds.worker w hw
  rw [aimsOf_append, List.length_append] at hfew
  have hphase := h.first (by omega) w hw
  have hshort : ∀ fed count, c.chunkSamples seg.unitSize ≤ min (fed + w.config.chunkSamples seg.unitSize) count ∨
      count ≤ min (fed + w.config.chunkSamples seg.unitSize) count := by
    intro fed count
    rw [hconfig]
    omega
  intro w' hw'
  cases hworks with
  | turnedAway | closed =>
    rw [worker_conclude] at hw'
    cases hw'
    trivial
  | unbuilt | stopped | caughtUp | overflow | done =>
    cases hw'
    trivial
  | opened =>
    cases hw'
    exact .inl rfl
  | held hp hi hlt hstop =>
    cases hw'
    exact hstop ▸ hshort ..
  | sent hp hi hlt hstop hs ha => exact of_absorbs (hstop ▸ hshort ..) ha w' hw'
  | released hp ha =>
    rw [hp] at hphase
    exact of_absorbs hphase ha w' hw'
  | roused hp =>
    -- a worker that waits was sent off before
    rw [hp] at haims
    have hsome : (aimsOf ds).length ≠ 0 := by
      intro hnone
      rw [List.length_eq_zero_iff.1 hnone] at haims
      cases haims.2
    rw [deeds_waiting hw hp] at hfew
    change _ + 1 ≤ 1 at hfew
    omega

theorem turn (h : Strides c t seg ds) (hfeeds : Feeds c t seg ds n) (hturn : Turn (t, seg) ds' (t', seg')) :
    Strides c t' seg' (ds ++ ds') := by
  have hunit : seg'.unitSize = seg.unitSize := (Course.single hturn).unitSize
  refine ⟨fun x hx => ?_, fun hfew => ?_⟩
  · rw [sentOf_append, List.mem_append] at hx
    rw [hunit, aimsOf_append]
    rcases hx with hx | hx
    · obtain ⟨hsum, count, hcount, hstop⟩ := h.ends x hx
      exact ⟨hsum, count, List.mem_append_left _ hcount, hstop⟩
    · obtain ⟨w, fed, count, hw, hp, -, -, hsum, rfl⟩ := exists_of_sent_turn hturn (mem_sentOf.1 hx)
      obtain ⟨rfl, haims⟩ := hfeeds.worker w hw
      rw [hp] at haims
      exact ⟨hsum, count, List.mem_append_left _ (List.mem_of_getLast? haims.2), rfl⟩
  · rcases turn_cases hturn with ⟨rfl, rfl, w, hw, hworks⟩ | ⟨hapart, -⟩
    · exact h.works hfeeds hw hworks hfew
    · rw [aimsOf_append, List.length_append] at hfew
      exact fun w hw => hunit ▸ h.first (by omega) w (hapart.stays hw)

theorem course {p q : Stack ε × Segment} (h : Strides c p.1 p.2 ds) (hfeeds : Feeds c p.1 p.2 ds n)
    (hcounts : Counts p.1 p.2) (hcourse : Course p ds' q) : Strides c q.1 q.2 (ds ++ ds') := by
  induction hcourse with
  | refl => simpa using h
  | tail hcourse hturn ih =>
    obtain ⟨n', hbefore⟩ := hfeeds.course hcounts hcourse
    rw [← List.append_assoc]
    exact ih.turn hbefore hturn

end Strides

/-- Nothing comes after a fault. -/
theorem faulted_of_course {p q : Stack ε × Segment} (hfault : ∀ w, p.1.worker = some w → w.phase = .faulted)
    (h : Course p ds q) : sentOf ds = [] ∧ q.1.output = p.1.output ∧ ∀ w, q.1.worker = some w → w.phase = .faulted := by
  induction h with
  | refl => exact ⟨rfl, rfl, hfault⟩
  | @tail q r ds ds' hcourse hturn ih =>
    obtain ⟨hsent, houtput, hq⟩ := ih
    obtain ⟨t, seg⟩ := q
    obtain ⟨t', seg'⟩ := r
    rcases turn_cases hturn with ⟨-, -, w, hw, hworks⟩ | ⟨hapart, hvisit⟩
    · have hover := isOver_of_works hworks
      rw [hq w hw] at hover
      cases hover
    · rw [sentOf_append, hsent, (visits_silent hvisit).2.1]
      exact ⟨rfl, hapart.output.trans houtput, fun w hw => hq w (hapart.stays hw)⟩

section Feeding
variable {fed count : Nat}

omit [Engine ε] in
theorem exists_of_aim (h : aimsOf t.aim = [count]) : ∃ w fed, t.worker = some w ∧ w.phase = .feeding fed count := by
  unfold aim at h
  split at h
  · rename_i w hw
    unfold Phase.aim at h
    split at h
    · rename_i fed count' hp
      cases h
      exact ⟨w, fed, hw, hp⟩
    · cases h
  · cases h

theorem step?_of_feeding (hw : t.worker = some w) (hp : w.phase = .feeding fed count) (hi : t.interrupted = false)
    (hlt : fed < count) : t.step? seg = some (t.submit w seg fed count) := by
  simp only [step?, hw, hp, hi, if_pos hlt]
  rfl

theorem submit_overflow (h : wordBound ≤ fed + w.config.chunkSamples seg.unitSize) :
    t.submit w seg fed count = (t.crash w, []) := by
  have hsum : checkedAdd fed (w.config.chunkSamples seg.unitSize) = .error .overflow := if_neg (Nat.not_lt.2 h)
  simp only [submit, hsum]

end Feeding

section Launched
variable {s : Stack ε} {number : Nat} {first : Segment}

/-- Where the chunks of a run end, whatever arrives and is told to it. Each ends at the sum of its first sample and
the size of chunks, or at a count that comes before, and the sum fits in 64 bits. A worker that has samples to hand
over does so as long as the sum fits. It ends in a fault, and the run with it, as soon as the sum does not. That
happens only to units of one byte, and only after the worker was sent off a second time at least. -/
theorem chunk_ends_of_run (hcomplete : s.stages.all Stage.isComplete = true) (hbytes : s.config.chunkBytes < wordBound)
    (h : Course ((s.launch (some (number, first))).1, first) ds (t, seg)) :
    (∀ x ∈ sentOf ds, x.start + s.config.chunkSamples seg.unitSize < wordBound ∧
      ∃ count ∈ aimsOf ds, x.stop = min (x.start + s.config.chunkSamples seg.unitSize) count) ∧
    ∀ w fed count, t.worker = some w → w.phase = .feeding fed count → t.interrupted = false → fed < count →
      (fed + s.config.chunkSamples seg.unitSize < wordBound → ∃ t' log x, t.step? seg = some (t', log) ∧
        .sent x ∈ deeds seg t t' ∧ x.start = fed ∧ x.stop = min (fed + s.config.chunkSamples seg.unitSize) count) ∧
      (wordBound ≤ fed + s.config.chunkSamples seg.unitSize → t.step? seg = some (t.crash w, []) ∧
        (∀ ds' t' seg', Course (t.crash w, seg) ds' (t', seg') → sentOf ds' = [] ∧ t'.output = t.output ∧
          ∀ w', t'.worker = some w' → w'.phase = .faulted) ∧
        (2 * seg.data.size ≤ wordBound → seg.unitSize = 1 ∧ 2 ≤ (aimsOf ds).length)) := by
  have hcounts := Counts.launch hcomplete number first
  have hlaunch := Feeds.launch hcomplete number first
  obtain ⟨n, hfeeds⟩ := hlaunch.course hcounts h
  have hstrides := (Strides.launch hcomplete number first).course hlaunch hcounts h
  rw [List.nil_append] at hfeeds hstrides
  refine ⟨hstrides.ends, fun w fed count hw hp hi hlt => ?_⟩
  obtain ⟨hconfig, -⟩ := hfeeds.worker w hw
  have hstep : t.step? seg = _ := step?_of_feeding hw hp hi hlt
  rw [← hconfig] at hbytes ⊢
  refine ⟨fun hsum => ?_, fun hover => ⟨?_, fun ds' t' seg' hcourse => ?_, fun hdata => ?_⟩⟩
  · refine ⟨_, _, t.sending seg w fed count, hstep, ?_, rfl, rfl⟩
    simp only [deeds, hw, hp, if_pos (And.intro hi (And.intro hlt hsum))]
    exact List.mem_cons_self ..
  · rw [hstep, submit_overflow hover]
  · refine faulted_of_course (p := (t.crash w, seg)) (fun w' hw' => ?_) hcourse
    cases hw'
    rfl
  · have hphase := (hcounts.run h.proceeds).phase w hw
    rw [hp] at hphase
    have hcount : count ≤ seg.size := Nat.le_trans hphase.2.2 (hcounts.run h.proceeds).announced
    obtain ⟨hunit, hnot⟩ := seg.unit_of_overflow hbytes hdata hlt hcount hover
    refine ⟨hunit, Nat.lt_of_not_le fun hfew => hnot ?_⟩
    have hfirst := hstrides.first hfew w hw
    rwa [hp, ← hconfig] at hfirst

/-- Chunks as large as they can be asked for: two samples are handed over at once, two more cannot be. -/
theorem chunk_ends_of_run_growing :
    let stage : Stage := ⟨Spi.profile, [("clk", ⟨"clk", 0, none⟩), ("mosi", ⟨"mosi", 1, none⟩)],
      [("wordsize", .int 2)], true⟩
    let s : Stack (Host Builtin) :=
      .create [stage] (.ofRegistry Builtin.registry) (Config.standard.withChunkBytes (wordBound - 1)) .running .shared
    let first : Segment := ⟨1, 0.0, 0.0, #[0, 3], by decide⟩
    let seg : Segment := ⟨1, 0.0, 0.0, #[0, 3, 0, 1], by decide⟩
    s.stages.all Stage.isComplete = true ∧ s.config.chunkBytes < wordBound ∧ ∃ ds t w,
      Course ((s.launch (some (0, first))).1, first) ds (t, seg) ∧ t.worker = some w ∧ w.phase = .feeding 2 4 ∧
        t.interrupted = false ∧ aimsOf ds = [2, 4] ∧ t.step? seg = some (t.crash w, []) ∧
        ∀ ds' t' seg', Course (t.crash w, seg) ds' (t', seg') → t'.output.decoded = 2 := by
  intro stage s first seg
  let t := (s.launch (some (0, first))).1
  let w : Worker := ⟨[stage], 0, if first.rate == 0.0 then 1.0 else first.rate, s.config, .queued⟩
  let r₁ := recorded first 9 (t.enter w first).1
  let r₂ := recorded seg 1 (r₁.2.announce seg.size)
  let ds := deeds first t (t.enter w first).1 ++ (r₁.1 ++ r₂.1)
  have hworker : t.worker = some w := rfl
  have happend : first.append #[0, 1] = .ok seg := Segment.append_eq_ok.2 ⟨by decide, rfl⟩
  have hcourse : Course (t, first) ds (r₂.2, seg) :=
    (Course.single (.enter hworker rfl)).trans ((course_recorded first 9 _).trans
      ((Course.single (.told (.append happend) rfl rfl)).trans ((Course.single .announce).trans
        (course_recorded seg 1 _))))
  have haim : aimsOf r₂.2.aim = [4] := by decide +kernel
  have hinterrupted : r₂.2.interrupted = false := by decide +kernel
  have hdecoded : r₂.2.output.decoded = 2 := by decide +kernel
  have haims : aimsOf ds = [2, 4] := by decide +kernel
  have hcomplete : s.stages.all Stage.isComplete = true := by decide
  have hbytes : s.config.chunkBytes < wordBound := by decide
  clear_value ds r₂
  obtain ⟨w', fed, hw', hp⟩ := exists_of_aim haim
  obtain rfl : fed = 2 := by
    have hphase := ((Counts.launch hcomplete 0 first).run hcourse.proceeds).phase w' hw'
    rw [hp] at hphase
    exact hphase.1.symm.trans hdecoded
  obtain ⟨-, hstep⟩ := chunk_ends_of_run hcomplete hbytes hcourse
  obtain ⟨-, hover⟩ := hstep w' 2 4 hw' hp hinterrupted (by decide)
  obtain ⟨hcrash, hstuck, -⟩ := hover (by decide)
  refine ⟨hcomplete, hbytes, ds, r₂.2, w', hcourse, hw', hp, hinterrupted, haims, hcrash, fun ds' t' seg' h => ?_⟩
  rw [(hstuck ds' t' seg' h).2.1, hdecoded]

end Launched
end Stack
end LogicDecode
