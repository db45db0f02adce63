import LogicDecode.Proofs.Drawn
import LogicDecode.Proofs.Words
import LogicDecode.Proofs.Scanning

/-!
# What the program prints of a parallel bus

The program loads a capture, decodes it with a stack of one stage and prints the marks of the visible rows. What comes
of the decoding is a run on the segment of the capture (`Capture.run_of_decode?`): the bench finds the segment behind
the clock, and the lock is free. All that such a run has stored is made of the samples, so each printed mark is a word
on the first eight of the data lines that were asked for (`Verdict.words_of_printed`). A longer list is not refused: the
lines behind the eighth are put on channels that the decoder does not have.
-/

namespace LogicDecode

theorem Stack.output_join {ε : Type} (t : Stack ε) : t.join.1.output = t.output := by
  unfold join
  cases t.worker <;> rfl

namespace Bench
variable {ε : Type} [Engine ε] {b : Bench ε} {i : Nat} {t : Stack ε} {w : Worker} {seg : Segment}

theorem chain_of_settle (ht : b.chains[i]? = some t) (hw : t.worker = some w)
    (hseg : b.segments[w.segment]? = some seg) : (b.settle i).chains[i]? = some (t.settle seg).1 := by
  have hfound : b.segmentOf? i = some seg := by simp [segmentOf?, ht, hw, hseg]
  unfold settle
  rw [hfound]
  dsimp only
  rw [getElem?_update, ht, Option.map_some, if_pos rfl]

theorem chain_of_enter (ht : b.chains[i]? = some t) (hw : t.worker = some w) (hq : w.phase = .queued)
    (hseg : b.segments[w.segment]? = some seg) :
    (b.enter i).chains[i]? = some ((t.enter w seg).1.settle seg).1 := by
  have hfound : b.segmentOf? i = some seg := by simp [segmentOf?, ht, hw, hseg]
  have hworks : Stack.Works seg t w (t.enter w seg).1 := Stack.works_of_enter hq
  obtain ⟨-, p, hworker⟩ := Stack.keeps_of_works hworks
  unfold enter
  rw [hfound]
  dsimp only
  refine chain_of_settle ?_ hworker ?_
  · rw [getElem?_update, ht, Option.map_some, if_pos rfl, hw]
  · rw [(update_fields ..).1]
    exact hseg

/-- The run at the head of the queue begins at once if its lock is free. -/
theorem chain_of_letIn (hqueue : b.queue = [i]) (ht : b.chains[i]? = some t) (hfree : b.isFree t.lock = true)
    (hw : t.worker = some w) (hq : w.phase = .queued) (hseg : b.segments[w.segment]? = some seg) :
    b.letIn.chains[i]? = some ((t.enter w seg).1.settle seg).1 := by
  unfold letIn
  rw [hqueue, List.foldl_cons, List.foldl_nil, ht]
  dsimp only
  rw [if_pos hfree]
  exact chain_of_enter (b := { b with queue := _ }) ht hw hq hseg

end Bench

namespace Capture
variable {c : Capture} {stage : Stage} {config : Config} {s : Stack (Host Builtin)}

/-- The stack that decodes a capture. -/
def chain (stage : Stage) (config : Config) : Stack (Host Builtin) :=
  .create [stage] (.ofRegistry Builtin.registry) config .stopped .shared

theorem find?_bench (hfirst : ∃ signal, stage.firstSignal? = some signal ∧ signal.source = some 0) :
    (c.bench stage config).find? [stage] = some (0, c.segment) := by
  obtain ⟨signal, hsignal, hsource⟩ := hfirst
  simp [Bench.find?, Capture.bench, Bench.create, Capture.source, Source.first?, hsignal, hsource]

theorem restart_bench (c : Capture) (stage : Stage) (config : Config) : (c.bench stage config).restart? 0 =
    let (t, log) := (chain stage config).launch ((c.bench stage config).find? [stage])
    let b : Bench (Host Builtin) := { c.bench stage config with chains := [t], log := log }
    some { b with queue := if t.worker.isSome then [0] else [] }.letIn := rfl

/-- A run on a capture is launched on its segment, and then goes on as far as it can. -/
theorem chain_of_restart (hcomplete : [stage].all Stage.isComplete = true)
    (hfirst : ∃ signal, stage.firstSignal? = some signal ∧ signal.source = some 0) {b : Bench (Host Builtin)}
    (hb : (c.bench stage config).restart? 0 = some b) :
    ∃ t, Relation.ReflTransGen Stack.Proceeds (((chain stage config).launch (some (0, c.segment))).1, c.segment)
        (t, c.segment) ∧ b.chains[0]? = some t := by
  set t := ((chain stage config).launch (some (0, c.segment))).1 with ht
  obtain ⟨w, hw, hq, hseg⟩ : ∃ w, t.worker = some w ∧ w.phase = .queued ∧ [c.segment][w.segment]? = some c.segment := by
    obtain ⟨i, o, rate, heq, -⟩ := Stack.exists_launch (chain stage config) hcomplete 0 c.segment
    rw [ht, heq]
    exact ⟨_, rfl, rfl, rfl⟩
  rw [restart_bench, find?_bench hfirst] at hb
  simp only [← ht, hw, Option.isSome_some, if_true] at hb
  cases hb
  refine ⟨((t.enter w c.segment).1.settle c.segment).1, .head (.enter hw hq) (Stack.proceeds_settle _ _),
    Bench.chain_of_letIn rfl rfl ?_ hw hq hseg⟩
  simp [Bench.isFree, Stack.holdsLock, hw, hq, Phase.holdsLock]

theorem error_of_restart (hcomplete : [stage].all Stage.isComplete = false) {b : Bench (Host Builtin)}
    (hb : (c.bench stage config).restart? 0 = some b) :
    ∃ t, t.output.error = some .missingChannels ∧ t.worker = none ∧ b.chains[0]? = some t := by
  have hlatched : ∀ found, ((chain stage config).launch found).1.output.error = some .missingChannels ∧
      ((chain stage config).launch found).1.worker = none := by
    intro found
    unfold Stack.launch
    dsimp only [Stack.clear]
    rw [show (chain stage config).stages = [stage] from rfl, hcomplete]
    exact ⟨rfl, rfl⟩
  obtain ⟨herror, hworker⟩ := hlatched ((c.bench stage config).find? [stage])
  rw [restart_bench] at hb
  simp only [hworker] at hb
  cases hb
  exact ⟨_, herror, hworker, rfl⟩

/-- What comes of decoding a capture is a run on its segment that was waited for, if the stage has the channels that it
needs. -/
theorem run_of_decode? (hfirst : ∃ signal, stage.firstSignal? = some signal ∧ signal.source = some 0)
    (hs : c.decode? stage config = some s) :
    s.output.error = some .missingChannels ∨
      ∃ t, [stage].all Stage.isComplete = true ∧
        Relation.ReflTransGen Stack.Proceeds (((chain stage config).launch (some (0, c.segment))).1, c.segment)
          (t, c.segment) ∧ s = t.join.1 := by
  unfold decode? at hs
  obtain ⟨b, hb, hs⟩ := Option.bind_eq_some_iff.1 hs
  obtain ⟨b', hb', hs⟩ := Option.bind_eq_some_iff.1 hs
  have hjoined : ∀ t, b.chains[0]? = some t → s = t.join.1 := by
    intro t ht
    unfold Bench.await? at hb'
    obtain ⟨t', ht', hb'⟩ := Option.bind_eq_some_iff.1 hb'
    cases ht.symm.trans ht'
    split at hb'
    · cases hb'
    · cases hb'
      rw [Bench.getElem?_update, ht, Option.map_some, if_pos rfl] at hs
      exact (Option.some.inj hs).symm
  cases hcomplete : [stage].all Stage.isComplete with
  | true =>
    obtain ⟨t, hrun, ht⟩ := chain_of_restart hcomplete hfirst hb
    exact .inr ⟨t, rfl, hrun, hjoined t ht⟩
  | false =>
    obtain ⟨t, herror, hworker, ht⟩ := error_of_restart hcomplete hb
    refine .inl ?_
    rw [hjoined t ht, Stack.join, hworker]
    exact herror

end Capture

namespace Verdict

/-- A report is printed of a capture that could be loaded and that was decoded without an error. -/
theorem ofLoaded_eq_printed {a : Arguments} {loaded : Outcome CaptureError Capture} {lines : List String} :
    ofLoaded a loaded = .printed lines ↔ ∃ c stage s, loaded = .ok c ∧ a.decoder.stage c = .ok stage ∧
      c.decode? stage a.config = some s ∧ s.output.error = none ∧ lines = s.report a.limit := by
  constructor
  · intro h
    unfold ofLoaded at h
    split at h
    · rename_i c
      unfold ofCapture at h
      split at h
      · cases h
      rename_i stage hstage
      split at h
      · cases h
      rename_i s hs
      split at h
      · cases h
      rename_i hnone
      cases h
      exact ⟨c, stage, s, rfl, hstage, hs, hnone, rfl⟩
    · cases h
    · cases h
  · rintro ⟨c, stage, s, rfl, hstage, hs, hnone, rfl⟩
    simp only [ofLoaded, ofCapture, hstage, hs, hnone]

/-- Whatever is printed of a parallel bus shows the levels of the first eight of its data lines at a transition of the
clock, and nothing of the others. -/
theorem words_of_printed {a : Arguments} {p : ParallelArguments} {archive : Archive} {lines : List String}
    (ha : a.decoder = .parallel p) (hprinted : ofLoaded a (Capture.ofArchive archive) = .printed lines) :
    ∃ c stage s, Capture.ofArchive archive = .ok c ∧ p.stage c = .ok stage ∧ c.decode? stage a.config = some s ∧
      lines = s.report a.limit ∧ ∀ row ∈ s.visibleRows, ∀ m ∈ s.marksOf row, ∃ value, Parallel.Shows c p m value := by
  obtain ⟨c, stage, s, hload, hstage, hdecode, hnone, hlines⟩ := ofLoaded_eq_printed.1 hprinted
  rw [ha] at hstage
  refine ⟨c, stage, s, hload, hstage, hdecode, hlines, fun row _ m hm => ?_⟩
  have hc := Capture.fitted_of_ofArchive hload
  have hp := ParallelArguments.asks_of_stage hstage
  rcases Capture.run_of_decode? hp.firstSignal? hdecode with herror | ⟨t, hcomplete, hrun, rfl⟩
  · rw [hnone] at herror
    cases herror
  · obtain ⟨hz, hdrawn⟩ := drawn_of_run rfl hcomplete (hp.wired hc) hrun
    have hmark := Stack.mem_marks_of_marksOf hm
    rw [Stack.output_join] at hmark
    exact Parallel.shows_of_marksOf hc hp (hdrawn m hmark)

/-- Nine data lines are taken, but the high level of the ninth one at the only word is not in its value. -/
theorem words_of_printed_nine_lines :
    let text := "[header]\nsamplerate = 1 MHz\ntotal samples = 4\ntotal probes = 10\ntotal blocks = 1\n"
    let archive : Archive := .ofList [("header", text.toUTF8.data), ("L-0/0", #[0]), ("L-1/0", #[0]), ("L-2/0", #[0]),
      ("L-3/0", #[0]), ("L-4/0", #[0]), ("L-5/0", #[0]), ("L-6/0", #[0]), ("L-7/0", #[0]), ("L-8/0", #[0x0f]),
      ("L-9/0", #[0x0a])]
    let p : ParallelArguments := ⟨9, [0, 1, 2, 3, 4, 5, 6, 7, 8], "rising"⟩
    let a : Arguments := ⟨"capture.dsl", 0, none, .parallel p⟩
    a.decoder = .parallel p ∧ ∃ lines, ofLoaded a (Capture.ofArchive archive) = .printed lines ∧
      ∃ c stage s row value, Capture.ofArchive archive = .ok c ∧ p.stage c = .ok stage ∧
        c.decode? stage a.config = some s ∧ lines = s.report a.limit ∧ row ∈ s.visibleRows ∧
        s.marksOf row = [⟨1, 3, "parallel", 0, ["00"]⟩] ∧
        Parallel.Shows c p ⟨1, 3, "parallel", 0, ["00"]⟩ value ∧ c.level 8 1 = .ok true ∧ value.testBit 8 = false := by
  intro text archive p a
  have hruns : (Capture.ofArchive archive).map (fun c => (p.stage c).map fun stage =>
      (c.decode? stage a.config).map fun s => (s.output.error, s.visibleRows.map s.marksOf)) =
      .ok (.ok (some (none, [[⟨1, 3, "parallel", 0, ["00"]⟩]]))) := by decide +kernel
  have hninth : (Capture.ofArchive archive).map (·.level 8 1) = .ok (.ok true) := by decide +kernel
  obtain ⟨c, hload, hruns⟩ := exists_of_map hruns
  obtain ⟨stage, hstage, hruns⟩ := exists_of_map hruns
  obtain ⟨s, hdecode, hruns⟩ := Option.map_eq_some_iff.1 hruns
  obtain ⟨hnone, hmarks⟩ := Prod.mk.inj hruns
  have hlevel : c.level 8 1 = .ok true := by
    rw [hload] at hninth
    exact Except.ok.inj hninth
  have hprinted : ofLoaded a (Capture.ofArchive archive) = .printed (s.report a.limit) :=
    ofLoaded_eq_printed.2 ⟨c, stage, s, hload, hstage, hdecode, hnone, rfl⟩
  obtain ⟨row, hrow, hrowmarks⟩ : ∃ row ∈ s.visibleRows, s.marksOf row = [⟨1, 3, "parallel", 0, ["00"]⟩] :=
    List.mem_map.1 (hmarks ▸ List.mem_singleton_self _)
  obtain ⟨c', stage', s', hload', hstage', hdecode', -, hshows⟩ := words_of_printed (a := a) (p := p) rfl hprinted
  cases hload.symm.trans hload'
  cases hstage.symm.trans hstage'
  cases hdecode.symm.trans hdecode'
  obtain ⟨value, hvalue⟩ := hshows row hrow _ (hrowmarks ▸ List.mem_singleton_self _)
  obtain ⟨high, -, hbit⟩ := hvalue.bit 8 8 rfl
  exact ⟨rfl, _, hprinted, c, stage, s, row, value, hload, hstage, hdecode, rfl, hrow, hrowmarks, hvalue, hlevel, hbit⟩

end Verdict

end LogicDecode
