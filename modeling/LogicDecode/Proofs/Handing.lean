import LogicDecode.Proofs.Feeding
import LogicDecode.Proofs.Serving
import LogicDecode.Proofs.SessionLogs

/-!
# Handing a segment over

A worker hands its segment over in chunks that adjoin, whatever is appended, announced and told meanwhile:
together they hold the bytes of the segment up to a sample, which is the last count that the worker was sent
off to if it ends of its own accord (`Feeds.course`). On a `Host` each chunk is one that the session accepts.
-/

namespace LogicDecode

/-- Chunks of a sample at least, each of which begins where the one before ends, from a sample to another one. -/
def Adjoin : Nat → List Sending → Nat → Prop
  | first, [], last => first = last
  | first, x :: xs, last => x.start = first ∧ x.start < x.stop ∧ Adjoin x.stop xs last

theorem Adjoin.snoc {xs : List Sending} {x : Sending} {first : Nat} (h : Adjoin first xs x.start)
    (hx : x.start < x.stop) : Adjoin first (xs ++ [x]) x.stop := by
  induction xs generalizing first with
  | nil =>
    obtain rfl : first = x.start := h
    exact ⟨rfl, hx, rfl⟩
  | cons y ys ih =>
    obtain ⟨hstart, hlt, hrest⟩ := h
    exact ⟨hstart, hlt, ih hrest⟩

def bytesOf (xs : List Sending) : List UInt8 := xs.flatMap fun x => x.data.toList

theorem Config.chunkSamples_eq (c : Config) {unitSize : Nat} (h : 0 < unitSize) :
    c.chunkSamples unitSize = max 1 (c.chunkBytes / unitSize) := by
  have hunit : max unitSize 1 = unitSize := Nat.max_eq_left h
  rw [chunkSamples, hunit, Nat.max_comm]

/-- A chunk is no larger than asked for, or it is one unit. -/
theorem Config.chunkSamples_mul_le (c : Config) (unitSize : Nat) :
    c.chunkSamples unitSize * unitSize ≤ max c.chunkBytes unitSize := by
  rcases Nat.eq_zero_or_pos unitSize with rfl | hpos
  · simp
  · have hle := Nat.div_mul_le_self c.chunkBytes unitSize
    rw [c.chunkSamples_eq hpos]
    rcases Nat.le_total 1 (c.chunkBytes / unitSize) with h | h
    · rw [Nat.max_eq_right h]
      omega
    · rw [Nat.max_eq_left h]
      omega

namespace Segment
variable {s s' : Segment} {n stop : Nat}

/-- The bytes of the samples below a number. -/
def upTo (s : Segment) (n : Nat) : List UInt8 := s.data.toList.take (n * s.unitSize)

theorem upTo_samples (hn : n ≤ stop) (hstop : stop ≤ s.size) :
    s.upTo n ++ (s.samples n stop).toList = s.upTo stop := by
  have hle : n * s.unitSize ≤ stop * s.unitSize := Nat.mul_le_mul_right _ hn
  have hsum : stop * s.unitSize = n * s.unitSize + (stop * s.unitSize - n * s.unitSize) := by omega
  rw [upTo, upTo, samples, Nat.min_eq_left hstop, Nat.min_eq_left hn, Array.toList_extract, List.extract_eq_take_drop,
    hsum, List.take_add, ← hsum]

theorem upTo_append {units : Bytes} (h : s.append units = .ok s') (hn : n ≤ s.size) : s'.upTo n = s.upTo n := by
  obtain ⟨-, rfl⟩ := append_eq_ok.1 h
  have hle : n * s.unitSize ≤ s.data.toList.length := by
    rw [Array.length_toList]
    exact Nat.le_trans (Nat.mul_le_mul_right _ hn) (Nat.div_mul_le_self ..)
  show (s.data ++ units).toList.take (n * s.unitSize) = _
  rw [Array.toList_append, List.take_append_of_le_length hle]
  rfl

end Segment

namespace Stack
variable {ε : Type} {c : Config} {t t' : Stack ε} {seg seg' : Segment} {w : Worker} {n : Nat} {ds ds' : List Deed}

/-- What the phase of a worker says about the sample up to which it has handed over its segment, and the counts
that it was sent off to. -/
def AimsAt (t : Stack ε) (n : Nat) (aims : List Nat) : Phase → Prop
  | .queued => n = 0
  | .feeding fed count => fed = n ∧ aims.getLast? = some count
  | .held stop count _ => stop = n ∧ aims.getLast? = some count
  | .waiting fed => fed = n ∧ aims.getLast? = some n
  | .closing error => error = none → t.interrupted = false → aims.getLast? = some n ∧ t.output.decoded = n
  | .ended => t.output.error = none → t.interrupted = false → aims.getLast? = some n ∧ t.output.decoded = n
  | .faulted => True

/-- The chunks on record are those of a segment up to a sample. -/
structure Feeds (c : Config) (t : Stack ε) (seg : Segment) (ds : List Deed) (n : Nat) : Prop where
  adjoin : Adjoin 0 (sentOf ds) n
  within : n ≤ seg.size
  pieces : ∀ x ∈ sentOf ds, x.unitSize = seg.unitSize ∧ x.stop - x.start ≤ c.chunkSamples seg.unitSize
  bytes : bytesOf (sentOf ds) = seg.upTo n
  worker : ∀ w, t.worker = some w → w.config = c ∧ t.AimsAt n (aimsOf ds) w.phase

theorem AimsAt.congr {aims : List Nat} {p : Phase} (h : t.AimsAt n aims p) (houtput : t'.output = t.output)
    (hi : t'.interrupted = false → t.interrupted = false) : t'.AimsAt n aims p := by
  cases p with
  | queued | feeding | held | waiting | faulted => exact h
  | closing => exact fun he hnot => houtput ▸ h he (hi hnot)
  | ended => exact fun he hnot => houtput ▸ h (houtput ▸ he) (hi hnot)

namespace Feeds

theorem launch {s : Stack ε} (hcomplete : s.stages.all Stage.isComplete = true) (number : Nat) (first : Segment) :
    Feeds s.config (s.launch (some (number, first))).1 first [] 0 := by
  obtain ⟨i, o, rate, heq, -⟩ := exists_launch s hcomplete number first
  rw [heq]
  refine ⟨rfl, Nat.zero_le _, nofun, by simp [bytesOf, Segment.upTo], fun w hw => ?_⟩
  cases hw
  exact ⟨rfl, rfl⟩

theorem keep (h : Feeds c t seg ds n) (hnone : sentOf ds' = [])
    (hworker : ∀ w, t'.worker = some w → w.config = c ∧ t'.AimsAt n (aimsOf (ds ++ ds')) w.phase) :
    Feeds c t' seg (ds ++ ds') n := by
  have hsame : sentOf (ds ++ ds') = sentOf ds := by rw [sentOf_append, hnone, List.append_nil]
  exact ⟨hsame ▸ h.adjoin, h.within, hsame ▸ h.pieces, hsame ▸ h.bytes, hworker⟩

theorem send (h : Feeds c t seg ds n) {stop : Nat} {sub : Submission} (hlt : n < stop) (hstop : stop ≤ seg.size)
    (hpiece : stop - n ≤ c.chunkSamples seg.unitSize)
    (hsent : sentOf ds' = [⟨n, stop, seg.samples n stop, seg.unitSize, sub⟩])
    (hworker : ∀ w, t'.worker = some w → w.config = c ∧ t'.AimsAt stop (aimsOf (ds ++ ds')) w.phase) :
    Feeds c t' seg (ds ++ ds') stop := by
  have hall : sentOf (ds ++ ds') = sentOf ds ++ [⟨n, stop, seg.samples n stop, seg.unitSize, sub⟩] := by
    rw [sentOf_append, hsent]
  refine ⟨hall ▸ h.adjoin.snoc (x := ⟨n, stop, seg.samples n stop, seg.unitSize, sub⟩) hlt, hstop, fun x hx => ?_,
    ?_, hworker⟩
  · rw [hall, List.mem_append, List.mem_singleton] at hx
    rcases hx with hx | rfl
    · exact h.pieces x hx
    · exact ⟨rfl, hpiece⟩
  · have hbytes := h.bytes
    unfold bytesOf at hbytes ⊢
    rw [hall, List.flatMap_append, hbytes]
    simpa using Segment.upTo_samples (Nat.le_of_lt hlt) hstop

theorem append (h : Feeds c t seg ds n) {units : Bytes} (happend : seg.append units = .ok seg') :
    Feeds c t seg' ds n := by
  obtain ⟨hunit, hsize⟩ := Segment.size_append happend
  refine ⟨h.adjoin, Nat.le_trans h.within hsize, hunit ▸ h.pieces, ?_, h.worker⟩
  rw [Segment.upTo_append happend h.within, h.bytes]

theorem aimsAt_conclude (u : Stack ε) (w : Worker) {e : Option RunError} {aims : List Nat}
    (hlast : e = none → u.interrupted = false → aims.getLast? = some n ∧ u.output.decoded = n) :
    ∀ w', (u.conclude w e).1.worker = some w' →
      w'.config = w.config ∧ (u.conclude w e).1.AimsAt n aims w'.phase := by
  intro w' hw'
  obtain ⟨b, hb⟩ := conclude_eq u w e
  rw [hb] at hw' ⊢
  cases hw'
  refine ⟨rfl, fun herror hi => ?_⟩
  obtain ⟨-, rfl⟩ := Option.or_eq_none_iff.1 herror
  exact hlast rfl hi

variable [Engine ε]

theorem aimsAt_absorbs {stop count : Nat} {sub : Submission} {aims : List Nat} (ha : Absorbs t w stop count sub t')
    (hlast : aims.getLast? = some count) :
    ∀ w', t'.worker = some w' → w'.config = w.config ∧ t'.AimsAt stop aims w'.phase := by
  intro w' hw'
  cases ha with
  | misfiled | broken =>
    cases hw'
    exact ⟨rfl, trivial⟩
  | refused =>
    cases hw'
    exact ⟨rfl, nofun⟩
  | taken =>
    cases hw'
    exact ⟨rfl, rfl, hlast⟩

theorem works (h : Feeds c t seg ds n) (hcounts : Counts t seg) (hw : t.worker = some w)
    (hworks : Works seg t w t') : ∃ n', Feeds c t' seg (ds ++ deeds seg t t') n' := by
  obtain ⟨hconfig, haims⟩ := h.worker w hw
  have hphase := hcounts.phase w hw
  -- only `held` and `sent` hand a chunk over; after any other move the sample is where it was
  cases hworks with
  | turnedAway hp =>
    rw [deeds_queued hw hp, aim_conclude]
    exact ⟨n, h.keep rfl (hconfig ▸ aimsAt_conclude _ w nofun)⟩
  | unbuilt hp =>
    rw [deeds_queued hw hp]
    refine ⟨n, h.keep rfl fun w' hw' => ?_⟩
    cases hw'
    exact ⟨hconfig, trivial⟩
  | opened hp =>
    rw [deeds_queued hw hp]
    rw [hp] at haims
    refine ⟨n, h.keep rfl fun w' hw' => ?_⟩
    cases hw'
    exact ⟨hconfig, haims.symm, by simp [Phase.aim]⟩
  | stopped hp hi =>
    rw [deeds_idle hw hp (.inl hi)]
    refine ⟨n, h.keep rfl fun w' hw' => ?_⟩
    cases hw'
    exact ⟨hconfig, fun _ hnot => nomatch hi.symm.trans hnot⟩
  | @caughtUp fed count hp hi hle =>
    rw [deeds_idle hw hp (.inr (.inl hle))]
    rw [hp] at haims hphase
    obtain ⟨rfl, hlast⟩ := haims
    -- the worker never feeds beyond the count, so it is right at it
    obtain rfl : count = fed := Nat.le_antisymm hle hphase.2.1
    refine ⟨count, h.keep rfl fun w' hw' => ?_⟩
    cases hw'
    exact ⟨hconfig, rfl, by simpa using hlast⟩
  | overflow hp _ hf =>
    have hsum := wordBound_le_of_checkedAdd hf
    rw [deeds_idle hw hp (.inr (.inr hsum))]
    refine ⟨n, h.keep rfl fun w' hw' => ?_⟩
    cases hw'
    exact ⟨hconfig, trivial⟩
  | @held fed count stop e sub hp hi hlt hstop hs hsum hheld =>
    rw [deeds_feeding hw hp hi hlt hstop hs hsum, if_pos hheld]
    rw [hp] at haims hphase
    obtain ⟨rfl, hlast⟩ := haims
    have hsize : stop ≤ seg.size := by have := hcounts.announced; have := hphase.2.2; omega
    refine ⟨stop, h.send hlt hsize (by rw [← hconfig]; omega) rfl fun w' hw' => ?_⟩
    cases hw'
    exact ⟨hconfig, rfl, by simpa using hlast⟩
  | @sent fed count stop e sub _ hp hi hlt hstop hs ha hsum hheld =>
    rw [deeds_feeding hw hp hi hlt hstop hs hsum, hheld]
    rw [hp] at haims hphase
    obtain ⟨rfl, hlast⟩ := haims
    have hsize : stop ≤ seg.size := by have := hcounts.announced; have := hphase.2.2; omega
    exact ⟨stop, h.send hlt hsize (by rw [← hconfig]; omega) rfl
      (hconfig ▸ aimsAt_absorbs ha (by simpa using hlast))⟩
  | @released stop count sub _ hp ha =>
    rw [deeds_held hw hp]
    rw [hp] at haims
    obtain ⟨rfl, hlast⟩ := haims
    exact ⟨stop, h.keep rfl (hconfig ▸ aimsAt_absorbs ha (by simpa using hlast))⟩
  | @roused fed count hp =>
    rw [deeds_waiting hw hp]
    rw [hp] at haims
    refine ⟨n, h.keep rfl fun w' hw' => ?_⟩
    cases hw'
    exact ⟨hconfig, haims.1, by simp [Phase.aim]⟩
  | done hp =>
    rw [deeds_waiting hw hp]
    rw [hp] at haims
    refine ⟨n, h.keep rfl fun w' hw' => ?_⟩
    cases hw'
    rw [hp] at hphase
    exact ⟨hconfig, fun _ _ => ⟨by simpa [Phase.aim] using haims.2, hphase.trans haims.1⟩⟩
  | closed hp =>
    rw [deeds_closing hw hp]
    rw [hp] at haims
    exact ⟨n, h.keep rfl (hconfig ▸ aimsAt_conclude _ w fun he hi => by simpa using haims he hi)⟩

theorem turn (h : Feeds c t seg ds n) (hcounts : Counts t seg) (hturn : Turn (t, seg) ds' (t', seg')) :
    ∃ n', Feeds c t' seg' (ds ++ ds') n' := by
  rcases turn_cases hturn with ⟨rfl, rfl, w, hw, hworks⟩ | ⟨hapart, hvisit⟩
  · exact h.works hcounts hw hworks
  obtain ⟨haims, hsent, -⟩ := visits_silent hvisit
  have hkept : Feeds c t' seg (ds ++ ds') n := by
    refine h.keep hsent fun w hw => ?_
    rw [aimsOf_append, haims, List.append_nil]
    obtain ⟨hconfig, haims⟩ := h.worker w (hapart.stays hw)
    exact ⟨hconfig, haims.congr hapart.output hapart.interrupted⟩
  rcases hapart.segment with rfl | ⟨units, happend⟩
  · exact ⟨n, hkept⟩
  · exact ⟨n, hkept.append happend⟩

/-- Whatever happens, the chunks on record are those of the segment up to a sample. -/
theorem course {p q : Stack ε × Segment} (h : Feeds c p.1 p.2 ds n) (hcounts : Counts p.1 p.2)
    (hcourse : Course p ds' q) : ∃ n', Feeds c q.1 q.2 (ds ++ ds') n' := by
  induction hcourse with
  | refl => exact ⟨n, by simpa using h⟩
  | tail hcourse hturn ih =>
    obtain ⟨n', hbefore⟩ := ih
    rw [← List.append_assoc]
    exact hbefore.turn (hcounts.run hcourse.proceeds) hturn

end Feeds
end Stack

namespace Session
variable {σ : Type} [Protocol σ] {s : Session σ} {b : Block}

/-- A session refuses a chunk that it accepts for one reason only: an instance refuses what it is given. -/
theorem refused_of_accept (haccept : s.accept b.start b.stop b.data.size b.unitSize = .ok ())
    {f : Failure EngineError} (h : (s.take b).outcome = .error f) :
    ∃ e i call, f = .refused e ∧ .called i call (.error e) ∈ s.logOf b := by
  obtain ⟨-, -, -, -, hlog⟩ := take_delivered haccept
  have hflow : (s.watch b).flow = (Flow.ofInstances s.instances).run ⟨b.start, b.data, b.unitSize⟩ :=
    Watched.flow_run _ _
  simp only [take, send, haccept] at h
  split at h
  · rename_i e he
    cases h
    rw [← hflow] at he
    obtain ⟨pre, i, call, hstop, -⟩ := (s.steady_watch b).stopped e he
    refine ⟨e, i, call, rfl, ?_⟩
    rw [hlog, hstop]
    exact List.mem_append_right _ (List.mem_singleton_self _)
  · cases h

end Session

def Phase.inChunks : Phase → Bool
  | .feeding .. | .held .. => true
  | _ => false

namespace Stack
section Chunks
variable {σ : Type} [Protocol σ] {t : Stack (Host σ)} {seg : Segment} {w : Worker} {fed count : Nat}

/-- A move of a worker that is at its chunks takes it on, or ends them. -/
theorem exists_step_of_feeding (seg : Segment) (hw : t.worker = some w) (hp : w.phase = .feeding fed count) :
    ∃ t' log p, t.step? seg = some (t', log) ∧ t'.worker = some { w with phase := p } ∧
      (p.inChunks = false ∨ ∃ fed', p = .feeding fed' count ∧ fed < fed' ∧ fed' ≤ count) := by
  have hmove : ∃ t' log, t.step? seg = some (t', log) := by
    unfold step?
    rw [hw]
    dsimp only
    rw [hp]
    dsimp only
    split
    · exact ⟨_, _, rfl⟩
    · split <;> exact ⟨_, _, rfl⟩
  obtain ⟨t', log, hstep⟩ := hmove
  obtain ⟨w', hw', hworks⟩ := works_of_step hstep
  cases hw.symm.trans hw'
  suffices h : ∃ p, t'.worker = some { w with phase := p } ∧
      (p.inChunks = false ∨ ∃ fed', p = .feeding fed' count ∧ fed < fed' ∧ fed' ≤ count) by
    obtain ⟨p, hp⟩ := h
    exact ⟨t', log, p, hstep, hp⟩
  cases hworks with
  | turnedAway hp' | unbuilt hp' | opened hp' | released hp' | roused hp' | done hp' | closed hp' =>
    cases hp.symm.trans hp'
  | stopped | caughtUp | overflow => exact ⟨_, rfl, .inl rfl⟩
  | @held _ _ stop e sub _ _ _ _ hs _ hheld =>
    -- a host never keeps its caller waiting
    cases hheld.symm.trans (Host.held_of_send hs)
  | @sent fed' count' stop e sub _ hp' _ hlt hstop _ ha =>
    cases hp.symm.trans hp'
    cases ha with
    | misfiled | broken | refused => exact ⟨_, rfl, .inl rfl⟩
    | taken => exact ⟨_, rfl, .inr ⟨stop, rfl, hlt, hstop ▸ Nat.min_le_right ..⟩⟩

/-- The chunks up to a count come to an end, after one move for each sample at the latest. -/
theorem exists_moves_of_feeding (hw : t.worker = some w) (hp : w.phase = .feeding fed count) (log : List LogEntry) :
    ∃ k ≤ count - fed + 1, ∃ w', (moves seg k (t, log)).1.worker = some w' ∧ w'.phase.inChunks = false := by
  induction hn : count - fed using Nat.strongRecOn generalizing t w fed log with
  | ind n ih =>
    obtain ⟨t', more, p, hstep, hw', hleft | ⟨fed', rfl, hlt, hle⟩⟩ := exists_step_of_feeding seg hw hp
    · refine ⟨1, by omega, { w with phase := p }, ?_, hleft⟩
      simp only [moves, hstep]
      exact hw'
    · obtain ⟨k, hk, w'', hend⟩ := ih (count - fed') (by omega) hw' rfl (log ++ more) rfl
      refine ⟨k + 1, by omega, w'', ?_⟩
      simp only [moves, hstep]
      exact hend

end Chunks

section Handed
variable {σ : Type} [Protocol σ] {s t : Stack (Host σ)} {number : Nat} {first seg : Segment} {ds : List Deed}

/-- A run hands its segment to a host in chunks that the session accepts, so that only a decoder refuses one,
and the chunks up to a count always come to an end. The chunks adjoin, none is larger than asked for or than
one unit, and together they are the segment up to a sample, which is the last count that the worker was sent
off to when a run has ended that was neither told to stop nor failed. -/
theorem handed_in_accepted_chunks (hcomplete : s.stages.all Stage.isComplete = true)
    (hbytes : s.config.chunkBytes < wordBound) (hunit : first.unitSize < wordBound)
    (h : Course ((s.launch (some (number, first))).1, first) ds (t, seg)) :
    (∀ ds' q x, Turn (t, seg) ds' q → .sent x ∈ ds' → ∃ n, t.engine.session = some n ∧
        n.accept x.start x.stop x.data.size x.unitSize = .ok () ∧
        ∀ f, x.answer.outcome = .error f → ∃ e i call, f = .refused e ∧
          .called i call (.error e) ∈ n.logOf ⟨x.start, x.stop, x.data, x.unitSize⟩) ∧
      (∀ w fed count, t.worker = some w → w.phase = .feeding fed count → ∃ k ≤ count - fed + 1, ∃ w',
        (moves seg k (t, [])).1.worker = some w' ∧ w'.phase.inChunks = false) ∧
      ∃ n, Adjoin 0 (sentOf ds) n ∧ n ≤ seg.size ∧
        (∀ x ∈ sentOf ds, x.unitSize = seg.unitSize ∧
          x.stop - x.start ≤ max 1 (s.config.chunkBytes / seg.unitSize)) ∧
        bytesOf (sentOf ds) = seg.data.toList.take (n * seg.unitSize) ∧
        ∀ w, t.worker = some w → w.phase = .ended → t.output.error = none → t.interrupted = false →
          (aimsOf ds).getLast? = some n ∧ t.output.decoded = n := by
  have htends : Tends s.engine s.stages t seg (takenOf ds) := (Tends.launch hcomplete number first).course h
  obtain ⟨n, hfeeds⟩ := (Feeds.launch hcomplete number first).course (Counts.launch hcomplete number first) h
  rw [List.nil_append] at hfeeds
  have hsize := s.config.chunkSamples_eq seg.unitSize_pos
  refine ⟨fun ds' q x hturn hx => ?_, fun w fed count hw hp => exists_moves_of_feeding hw hp [], n, hfeeds.adjoin,
    hfeeds.within, fun x hx => hsize ▸ hfeeds.pieces x hx, hfeeds.bytes, fun w hw hp he hi => ?_⟩
  · obtain ⟨hserves, hlt, hxunit, hxsize, e, hsend⟩ := htends.handed hturn hx
    obtain ⟨n, hn, hstarted, hnext⟩ := Host.session_of_serves hserves
    have hpos : 0 < x.unitSize := hxunit ▸ seg.unitSize_pos
    -- bounds are known of the chunks on record, so take the turn that puts this one there
    have hle : (x.stop - x.start) * x.unitSize ≤ max s.config.chunkBytes x.unitSize := by
      obtain ⟨n', hnext⟩ := hfeeds.turn htends.counts hturn
      obtain ⟨hqunit, hpiece⟩ := hnext.pieces x (by rw [sentOf_append]; exact List.mem_append_right _ (mem_sentOf.2 hx))
      rw [← hqunit] at hpiece
      exact Nat.le_trans (Nat.mul_le_mul_right _ hpiece) (s.config.chunkSamples_mul_le x.unitSize)
    have hsmall : x.unitSize < wordBound := by rw [hxunit, h.unitSize]; exact hunit
    have haccept := accept_of_size hstarted hnext (Nat.le_of_lt hlt) hpos hxsize (by omega)
    obtain ⟨-, hanswer⟩ := Host.session_of_send hn hsend
    refine ⟨n, hn, haccept, fun f hf => ?_⟩
    rw [hanswer] at hf
    exact Session.refused_of_accept (b := ⟨x.start, x.stop, x.data, x.unitSize⟩) haccept hf
  · have haims := (hfeeds.worker w hw).2
    rw [hp] at haims
    exact haims he hi

/-- A segment of two samples gets two more while it is handed over, sample by sample. -/
theorem handed_in_accepted_chunks_growing :
    let stage : Stage := ⟨Spi.profile, [("clk", ⟨"clk", 0, none⟩), ("mosi", ⟨"mosi", 1, none⟩)],
      [("wordsize", .int 2)], true⟩
    let s : Stack (Host Builtin) :=
      .create [stage] (.ofRegistry Builtin.registry) (Config.standard.withChunkBytes 3) .running .shared
    let first : Segment := ⟨2, 0.0, 0.0, #[0, 0, 3, 0], by decide⟩
    let seg : Segment := ⟨2, 0.0, 0.0, #[0, 0, 3, 0, 0, 0, 1, 0], by decide⟩
    s.stages.all Stage.isComplete = true ∧ s.config.chunkBytes < wordBound ∧ first.unitSize < wordBound ∧
      ∃ ds t w, Course ((s.launch (some (0, first))).1, first) ds (t, seg) ∧ t.worker = some w ∧ w.phase = .ended ∧
        t.output.error = none ∧ t.interrupted = false ∧ aimsOf ds = [2, 4] ∧ Adjoin 0 (sentOf ds) 4 ∧
        bytesOf (sentOf ds) = seg.data.toList ∧ ∀ x ∈ sentOf ds, x.stop - x.start ≤ 1 := by
  intro stage s first seg
  let t := (s.launch (some (0, first))).1
  let w : Worker := ⟨[stage], 0, if first.rate == 0.0 then 1.0 else first.rate, s.config, .queued⟩
  let r₁ := recorded first 9 (t.enter w first).1
  let r₂ := recorded seg 9 (r₁.2.announce seg.size).complete
  let ds := deeds first t (t.enter w first).1 ++ (r₁.1 ++ r₂.1)
  have hworker : t.worker = some w := rfl
  have happend : first.append #[0, 0, 1, 0] = .ok seg := Segment.append_eq_ok.2 ⟨by decide, rfl⟩
  have hcourse : Course (t, first) ds (r₂.2, seg) :=
    (Course.single (.enter hworker rfl)).trans ((course_recorded first 9 _).trans
      ((Course.single (.told (.append happend) rfl rfl)).trans ((Course.single .announce).trans
        ((Course.single .complete).trans (course_recorded seg 9 _)))))
  have hended : r₂.2.worker.any (·.phase.hasEnded) = true := by decide +kernel
  have hinterrupted : r₂.2.interrupted = false := by decide +kernel
  have herror : r₂.2.output.error.isNone = true := by decide +kernel
  have haims : aimsOf ds = [2, 4] := by decide +kernel
  have hcomplete : s.stages.all Stage.isComplete = true := by decide
  have hbytes : s.config.chunkBytes < wordBound := by decide
  have hunit : first.unitSize < wordBound := by decide
  have hone : max 1 (s.config.chunkBytes / seg.unitSize) = 1 := by decide
  clear_value ds r₂
  rw [Option.isNone_iff_eq_none] at herror
  obtain ⟨w', hw', hp⟩ := exists_of_hasEnded hended
  obtain ⟨-, -, n, hadjoin, -, hpieces, hjoined, hlast⟩ := handed_in_accepted_chunks hcomplete hbytes hunit hcourse
  obtain rfl : 4 = n := by simpa [haims] using (hlast w' hw' hp herror hinterrupted).1
  exact ⟨hcomplete, hbytes, hunit, ds, r₂.2, w', hcourse, hw', hp, herror, hinterrupted, haims, hadjoin, hjoined,
    fun x hx => hone ▸ (hpieces x hx).2⟩

end Handed
end Stack
end LogicDecode
