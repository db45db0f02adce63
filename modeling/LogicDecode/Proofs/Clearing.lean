import LogicDecode.Proofs.Courses
import LogicDecode.Proofs.Filing
import LogicDecode.Proofs.Orderly
import LogicDecode.Proofs.Progress

/-!
# Clearing a stack

A stack that is only cleared while nothing runs stores every mark that an orderly engine reports, in every
run, and each run ends by telling so (`Sound`). Clearing empties the row table, and nothing fills it again
before the next run. So the run that goes on breaks down at its first mark.
-/

namespace LogicDecode
namespace Stack
variable {ε : Type} [Engine ε]

/-- What the worker takes in next, when its engine lets go of it: what the engine, in a new state, made of the
samples up to a number. -/
inductive Takes (t : Stack ε) (seg : Segment) (w : Worker) : Nat → Submission → ε → Prop
  | held {stop count : Nat} {sub : Submission} (hp : w.phase = .held stop count sub) : Takes t seg w stop sub t.engine
  | sent {fed count stop : Nat} {e : ε} {sub : Submission} (hp : w.phase = .feeding fed count) (hlt : fed < stop)
      (hstop : stop = min (fed + w.config.chunkSamples seg.unitSize) count)
      (hs : Engine.send t.engine fed stop (seg.samples fed stop) seg.unitSize = (e, sub)) : Takes t seg w stop sub e

/-- The worker breaks down, and not for a mark: its engine does, or the end of a chunk has no number. -/
inductive Breaks (t : Stack ε) (seg : Segment) (w : Worker) : Prop
  | build {f : Fault} (hp : w.phase = .queued)
      (hf : (build (Engine.openSession t.engine).1 none w.stages).2 = .error (.fault f))
  | sum {fed count : Nat} {f : Fault} (hp : w.phase = .feeding fed count)
      (hf : checkedAdd fed (w.config.chunkSamples seg.unitSize) = .error f)
  | engine {stop : Nat} {sub : Submission} {e : ε} {f : Fault} (ht : Takes t seg w stop sub e)
      (hf : sub.outcome = .error (.fault f))

/-- What can happen to a stack that is only cleared while nothing runs. -/
inductive Lives : Stack ε × Segment → Stack ε × Segment → Prop
  | proceeds {p q : Stack ε × Segment} (h : Proceeds p q) : Lives p q
  | launch {t : Stack ε} {seg : Segment} (hw : t.worker = none) (number : Nat) (first : Segment) :
      Lives (t, seg) ((t.launch (some (number, first))).1, first)
  | idle {t : Stack ε} {seg : Segment} (hw : t.worker = none) : Lives (t, seg) ((t.launch none).1, seg)
  | clear {t : Stack ε} {seg : Segment} (hr : t.isRunning = false) : Lives (t, seg) (t.clear, seg)

/-- What the phase of a worker says about its session, which has reported the marks `ms`. -/
def ServesAt (t : Stack ε) (e₀ : ε) (stages : List Stage) (ms : List Mark) : Phase → Prop
  | .queued => ms = []
  | .feeding fed _ | .waiting fed => Engine.Serves e₀ stages t.engine fed ms
  | .held stop _ sub => ∃ e n, Engine.Serves e₀ stages e n ms ∧ Engine.Sends e n stop sub t.engine
  | .closing _ | .ended | .faulted => True

theorem ServesAt.congr {t t' : Stack ε} {e₀ : ε} {stages : List Stage} {p : Phase} {ms : List Mark} (h : t.ServesAt e₀ stages ms p) (he : t'.engine = t.engine) :
    t'.ServesAt e₀ stages ms p := by
  cases p with
  | queued | closing | ended | faulted => exact h
  | feeding | waiting | held =>
    unfold ServesAt
    rw [he]
    exact h

/-- A run goes on, and what its session has reported is stored. -/
structure Live (e₀ : ε) (stages : List Stage) (t : Stack ε) (seg : Segment) (w : Worker) (ms : List Mark) :
    Prop where
  chain : w.stages = stages
  counts : Counts t seg
  holds : HoldsMarks (.ofProfiles (stages.map (·.profile))) (max w.config.notifyPeriod 1) ms t.output
  serves : t.ServesAt e₀ stages ms w.phase

/-- If a run goes on, what it has reported is stored. -/
structure Sound (e₀ : ε) (stages : List Stage) (t : Stack ε) (seg : Segment) : Prop where
  chain : t.stages = stages
  reaches : Engine.Reaches e₀ t.engine
  live : ∀ w, t.worker = some w → w.phase.isOver = false → ∃ ms, Live e₀ stages t seg w ms

section Sound
variable {e₀ : ε} {stages : List Stage} {t t' : Stack ε} {seg seg' : Segment} {w w' : Worker} {ms : List Mark}
  {sub : Submission} {stop count : Nat} {e : ε}

theorem reaches_of_absorbs (h : Absorbs t w stop count sub t') : Engine.Reaches t.engine t'.engine := by
  cases h with
  | misfiled | broken => exact .single .closeSession
  | refused | taken => exact .refl

theorem reaches_of_works (h : Works seg t w t') : Engine.Reaches t.engine t'.engine := by
  have hsend : ∀ {fed stop : Nat} {data : Bytes} {unitSize : Nat} {e : ε} {sub : Submission},
      Engine.send t.engine fed stop data unitSize = (e, sub) → Engine.Reaches t.engine e := by
    intro fed stop data unitSize e sub hs
    have hleads := Engine.Leads.send (e := t.engine) fed stop data unitSize
    rw [hs] at hleads
    exact .single hleads
  cases h with
  | turnedAway _ _ he =>
    rw [engine_conclude]
    exact he
  | unbuilt _ _ he => exact he
  | opened _ ho hb hs => exact Engine.reaches_of_serves (.started .refl ho hb hs)
  | stopped | caughtUp | roused | done => exact .refl
  | overflow => exact .single .closeSession
  | held _ _ _ _ hs => exact hsend hs
  | sent _ _ _ _ hs ha => exact (hsend hs).trans (reaches_of_absorbs ha)
  | released _ ha => exact reaches_of_absorbs ha
  | closed =>
    rw [engine_conclude]
    exact .single .closeSession

/-- What the worker takes in next is the answer to the chunk behind those that its session has taken. -/
theorem sends_of_takes (hcounts : Counts t seg) (hserves : t.ServesAt e₀ stages ms w.phase) (hw : t.worker = some w)
    (ht : Takes t seg w stop sub e) : ∃ e' n, Engine.Serves e₀ stages e' n ms ∧ Engine.Sends e' n stop sub e := by
  have hphase := hcounts.phase w hw
  cases ht with
  | held hp =>
    rw [hp] at hserves
    exact hserves
  | @sent fed count _ _ _ hp hlt hstop hs =>
    rw [hp] at hserves hphase
    obtain ⟨-, -, hcount⟩ := hphase
    have hle : stop ≤ count := hstop ▸ Nat.min_le_right ..
    have hsize := Segment.size_samples (Nat.le_trans hle (Nat.le_trans hcount hcounts.announced)) (Nat.le_of_lt hlt)
    exact ⟨_, fed, hserves, hlt, _, _, seg.unitSize_pos, hsize, hs⟩

theorem servesAt_of_absorbs {n : Nat} (hserves : Engine.Serves e₀ stages e n ms)
    (hsends : Engine.Sends e n stop sub t.engine) (ha : Absorbs t w stop count sub t') (hw' : t'.worker = some w') :
    t'.ServesAt e₀ stages (ms ++ sub.reported) w'.phase := by
  cases ha with
  | misfiled | broken | refused =>
    cases hw'
    trivial
  | taken hs hok =>
    cases hw'
    exact .sent hserves hsends hok

/-- The session of a run has reported what the run has taken in. -/
theorem servesAt_of_works (hserves : t.ServesAt e₀ stages ms w.phase) (hchain : w.stages = stages)
    (hcounts : Counts t seg) (he : Engine.Reaches e₀ t.engine) (hw : t.worker = some w) (hworks : Works seg t w t')
    (hw' : t'.worker = some w') : t'.ServesAt e₀ stages (ms ++ takenOf (deeds seg t t')) w'.phase := by
  cases hworks with
  | turnedAway | closed =>
    rw [worker_conclude] at hw'
    cases hw'
    trivial
  | unbuilt | overflow | stopped | done =>
    cases hw'
    trivial
  | opened hp ho hb hs =>
    cases hw'
    rw [hp] at hserves
    obtain rfl : ms = [] := hserves
    rw [hchain] at hb
    rw [deeds_queued hw hp]
    exact .started he ho hb hs
  | caughtUp hp hi hle =>
    cases hw'
    rw [hp] at hserves
    rw [deeds_idle hw hp (.inr (.inl hle)), takenOf, List.flatMap_nil, List.append_nil]
    exact hserves
  | @roused fed count hp =>
    cases hw'
    rw [hp] at hserves
    have hnone : takenOf (t.setPhase w (.feeding fed count)).aim = [] := rfl
    rw [deeds_waiting hw hp, hnone, List.append_nil]
    exact hserves
  | @held _ _ stop e sub hp hi hlt hstop hs hsum hheld =>
    cases hw'
    have hsends := sends_of_takes hcounts hserves hw (.sent hp hlt hstop hs)
    rw [deeds_feeding hw hp hi hlt hstop hs hsum, if_pos hheld, takenOf_sent, takenOf_nil, List.append_nil]
    exact hsends
  | @sent _ _ stop e sub _ hp hi hlt hstop hs ha hsum hheld =>
    obtain ⟨e', n, hbefore, hsends⟩ := sends_of_takes hcounts hserves hw (.sent hp hlt hstop hs)
    have hnext := servesAt_of_absorbs (t := { t with engine := e }) hbefore hsends ha hw'
    rw [deeds_feeding hw hp hi hlt hstop hs hsum, hheld]
    simpa using hnext
  | @released stop count sub _ hp ha =>
    obtain ⟨e', n, hbefore, hsends⟩ := sends_of_takes hcounts hserves hw (.held hp)
    have hnext := servesAt_of_absorbs hbefore hsends ha hw'
    rw [deeds_held hw hp]
    simpa using hnext

theorem classify_of_takes (h : Live e₀ stages t seg w ms) (horderly : Engine.Orderly e₀ stages)
    (hw : t.worker = some w) (ht : Takes t seg w stop sub e) :
    ((ms ++ sub.reported).Pairwise fun a b => a.start ≤ b.start) ∧ ∀ m ∈ ms ++ sub.reported,
      ((RowTable.ofProfiles (stages.map (·.profile))).classify m.decoder m.cls).isSome := by
  obtain ⟨e', n, hserves, hsends⟩ := sends_of_takes h.counts h.serves hw ht
  obtain ⟨hknown, hsorted⟩ := horderly _ _ _ _ _ _ hserves hsends
  exact ⟨hsorted, fun m hm => isSome_classify_of_stage (hknown m hm)⟩

/-- All marks that an orderly engine reports to a run are stored. -/
theorem stores_of_takes (h : Live e₀ stages t seg w ms) (horderly : Engine.Orderly e₀ stages)
    (hw : t.worker = some w) (ht : Takes t seg w stop sub e) :
    ∃ o b log, storeAll sub.reported t.output t.broadcast [] = (o, b, log, none) ∧
      HoldsMarks (.ofProfiles (stages.map (·.profile))) (max w.config.notifyPeriod 1) (ms ++ sub.reported) o := by
  obtain ⟨hsorted, hclass⟩ := classify_of_takes h horderly hw ht
  obtain ⟨o, new, hstore, -, hholds⟩ := h.holds.storeAll (.ofProfiles _)
    (fun m hm => hclass m (List.mem_append_right _ hm)) (RowTable.inOrder_of_pairwise _ hsorted) t.broadcast []
  exact ⟨o, _, _, hstore, hholds⟩

/-- A move of a worker takes in what its engine has made of a chunk, or changes no result but the error. -/
theorem output_of_works (hw : t.worker = some w) (hworks : Works seg t w t') :
    (takenOf (deeds seg t t') = [] ∧ ∃ err, t'.output = { t.output with error := err }) ∨
      ∃ stop count sub e, takenOf (deeds seg t t') = sub.reported ∧ Takes t seg w stop sub e ∧
        Absorbs { t with engine := e } w stop count sub t' := by
  have hconclude : ∀ (u : Stack ε) (err : Option RunError), ∃ err', (u.conclude w err).1.output =
      { u.output with error := err' } := by
    intro u err
    obtain ⟨b, hb⟩ := conclude_eq u w err
    exact ⟨u.output.error.or err, by rw [hb]⟩
  cases hworks with
  | turnedAway hp =>
    rw [deeds_queued hw hp, aim_conclude]
    exact .inl ⟨rfl, hconclude _ _⟩
  | closed hp =>
    rw [deeds_closing hw hp]
    exact .inl ⟨rfl, hconclude _ _⟩
  | unbuilt hp | opened hp =>
    rw [deeds_queued hw hp]
    exact .inl ⟨rfl, _, rfl⟩
  | roused hp | done hp =>
    rw [deeds_waiting hw hp]
    exact .inl ⟨rfl, _, rfl⟩
  | stopped hp hi =>
    rw [deeds_idle hw hp (.inl hi)]
    exact .inl ⟨rfl, _, rfl⟩
  | caughtUp hp _ hle =>
    rw [deeds_idle hw hp (.inr (.inl hle))]
    exact .inl ⟨rfl, _, rfl⟩
  | overflow hp _ hf =>
    have hsum := wordBound_le_of_checkedAdd hf
    rw [deeds_idle hw hp (.inr (.inr hsum))]
    exact .inl ⟨rfl, _, rfl⟩
  | held hp hi hlt hstop hs hsum hheld =>
    rw [deeds_feeding hw hp hi hlt hstop hs hsum, hheld]
    exact .inl ⟨rfl, _, rfl⟩
  | sent hp hi hlt hstop hs ha hsum hheld =>
    rw [deeds_feeding hw hp hi hlt hstop hs hsum, hheld]
    exact .inr ⟨_, _, _, _, List.append_nil _, .sent hp hlt hstop hs, ha⟩
  | released hp ha =>
    rw [deeds_held hw hp]
    exact .inr ⟨_, _, _, _, List.append_nil _, .held hp, ha⟩

/-- The marks that a run has taken in are stored. -/
theorem holds_of_works (h : Live e₀ stages t seg w ms) (horderly : Engine.Orderly e₀ stages)
    (hw : t.worker = some w) (hworks : Works seg t w t') :
    HoldsMarks (.ofProfiles (stages.map (·.profile))) (max w.config.notifyPeriod 1) (ms ++ takenOf (deeds seg t t'))
      t'.output := by
  rcases output_of_works hw hworks with ⟨hnone, err, houtput⟩ | ⟨stop, count, sub, e, htaken, ht, ha⟩
  · rw [hnone, List.append_nil, houtput]
    exact h.holds.congr rfl rfl rfl rfl rfl
  · obtain ⟨o, b, log, hstore, hholds⟩ := stores_of_takes h horderly hw ht
    rcases output_of_absorbs ha hstore with ⟨-, houtput⟩ | ⟨-, houtput⟩ <;> rw [htaken, houtput]
    · exact hholds
    · exact hholds.congr rfl rfl rfl rfl rfl

theorem live_of_works (h : Live e₀ stages t seg w ms) (horderly : Engine.Orderly e₀ stages)
    (he : Engine.Reaches e₀ t.engine) (hw : t.worker = some w) (hworks : Works seg t w t')
    (hw' : t'.worker = some w') : Live e₀ stages t' seg w' (ms ++ takenOf (deeds seg t t')) := by
  have hserves := servesAt_of_works h.serves h.chain h.counts he hw hworks hw'
  have hholds := holds_of_works h horderly hw hworks
  obtain ⟨p, hp⟩ := (keeps_of_works hworks).2
  cases hp.symm.trans hw'
  exact ⟨h.chain, (h.counts.works hw hworks).1, hholds, hserves⟩

/-- A run on an orderly engine ends by telling so, unless its worker breaks down for want of the engine. -/
theorem ends_of_works (h : Live e₀ stages t seg w ms) (horderly : Engine.Orderly e₀ stages)
    (hw : t.worker = some w) (hworks : Works seg t w t') (hw' : t'.worker = some w') (hover : w'.phase.isOver = true) :
    (w'.phase = .ended ∧ ∃ b : Broadcast, t'.broadcast = b.send .finished) ∨ w'.phase = .faulted ∧ Breaks t seg w := by
  have htold : ∀ {u : Stack ε} {e : Option RunError}, (u.conclude w e).1.worker = some w' →
      w'.phase = .ended ∧ ∃ b : Broadcast, (u.conclude w e).1.broadcast = b.send .finished := by
    intro u e hw'
    obtain ⟨b, hb⟩ := conclude_eq u w e
    rw [hb] at hw' ⊢
    cases hw'
    exact ⟨rfl, b, rfl⟩
  have habsorbed : ∀ {stop count : Nat} {sub : Submission} {e : ε}, Takes t seg w stop sub e →
      Absorbs { t with engine := e } w stop count sub t' → w'.phase = .faulted ∧ Breaks t seg w := by
    intro stop count sub e ht ha
    obtain ⟨o, b, log, hstore, -⟩ := stores_of_takes h horderly hw ht
    cases ha with
    | misfiled hs => cases hs.symm.trans hstore
    | broken _ hf =>
      cases hw'
      exact ⟨rfl, .engine ht hf⟩
    | refused | taken =>
      cases hw'
      cases hover
  cases hworks with
  | turnedAway | closed => exact .inl (htold hw')
  | unbuilt hp hf =>
    cases hw'
    exact .inr ⟨rfl, .build hp hf⟩
  | overflow hp _ hf =>
    cases hw'
    exact .inr ⟨rfl, .sum hp hf⟩
  | opened | stopped | done | caughtUp | roused | held =>
    cases hw'
    cases hover
  | sent hp _ hlt hstop hs ha => exact .inr (habsorbed (.sent hp hlt hstop hs) ha)
  | released hp ha => exact .inr (habsorbed (.held hp) ha)

theorem Sound.proceeds (h : Sound e₀ stages t seg) (horderly : Engine.Orderly e₀ stages)
    (hp : Proceeds (t, seg) (t', seg')) : Sound e₀ stages t' seg' := by
  have hchain := (keeps_of_proceeds hp).stages.trans h.chain
  rcases proceeds_cases hp with ⟨rfl, w, hw, hworks, -⟩ | hapart
  · obtain ⟨ms, hlive⟩ := h.live w hw (isOver_of_works hworks)
    exact ⟨hchain, h.reaches.trans (reaches_of_works hworks), fun w' hw' _ =>
      ⟨_, live_of_works hlive horderly h.reaches hw hworks hw'⟩⟩
  · have hengine : t'.engine = t.engine := hapart.engine
    have houtput : t'.output = t.output := hapart.output
    refine ⟨hchain, hengine ▸ h.reaches, fun w hw hlive => ?_⟩
    obtain ⟨ms, hlive⟩ := h.live w (hapart.stays hw) hlive
    exact ⟨ms, hlive.chain, (hlive.counts.proceeds hp).1, houtput ▸ hlive.holds, hlive.serves.congr hengine⟩

theorem Sound.of_idle (hr : t.isRunning = false) : Sound t.engine t.stages t seg := by
  refine ⟨rfl, .refl, fun w hw hlive => ?_⟩
  simp [isRunning, hw, hlive] at hr

theorem Sound.idle (h : Sound e₀ stages t seg) (hw : t.worker = none) {found : Option (Nat × Segment)}
    (hidle : t.stages.all Stage.isComplete = false ∨ found = none) : Sound e₀ stages (t.launch found).1 seg' := by
  obtain ⟨o, b, heq⟩ := exists_launch_of_idle t hidle
  rw [heq]
  refine ⟨h.chain, h.reaches, fun w hw' => ?_⟩
  exact absurd (hw.symm.trans hw') nofun

theorem sound_launch (hreaches : Engine.Reaches e₀ t.engine) (hcomplete : t.stages.all Stage.isComplete = true)
    (number : Nat) (first : Segment) : Sound e₀ t.stages (t.launch (some (number, first))).1 first := by
  have hcounts := Counts.launch hcomplete number first
  have hholds := holds_launch hcomplete (some (number, first))
  obtain ⟨i, o, rate, heq, -⟩ := exists_launch t hcomplete number first
  rw [heq] at hcounts hholds ⊢
  refine ⟨rfl, hreaches, fun w hw _ => ?_⟩
  cases hw
  exact ⟨[], rfl, hcounts, hholds, rfl⟩

theorem Sound.launch (h : Sound e₀ stages t seg) (hw : t.worker = none) (number : Nat) (first : Segment) :
    Sound e₀ stages (t.launch (some (number, first))).1 first := by
  cases hcomplete : t.stages.all Stage.isComplete with
  | false => exact h.idle hw (.inl hcomplete)
  | true => exact h.chain ▸ sound_launch h.reaches hcomplete number first

theorem Sound.lives (h : Sound e₀ stages t seg) (horderly : Engine.Orderly e₀ stages)
    (hl : Lives (t, seg) (t', seg')) : Sound e₀ stages t' seg' := by
  cases hl with
  | proceeds hp => exact h.proceeds horderly hp
  | launch hw number => exact h.launch hw number seg'
  | idle hw => exact h.idle hw (.inr rfl)
  | clear hr =>
    refine ⟨h.chain, h.reaches, fun w hw hlive => ?_⟩
    have hworker : t.worker = some w := hw
    simp [isRunning, hworker, hlive] at hr

theorem Sound.run {p q : Stack ε × Segment} (h : Sound e₀ stages p.1 p.2) (horderly : Engine.Orderly e₀ stages)
    (hrun : Relation.ReflTransGen Lives p q) : Sound e₀ stages q.1 q.2 := by
  induction hrun with
  | refl => exact h
  | tail _ hstep ih => exact ih.lives horderly hstep

end Sound

/-- A table without rows takes no mark: the worker that takes one in is at fault, and tells nobody. -/
theorem absorb_cleared {t : Stack ε} (htable : t.output.table = .empty) (w : Worker) (stop count : Nat)
    {sub : Submission} {m : Mark} {rest : List Mark} (hsub : sub.reported = m :: rest) :
    t.absorb w stop count sub = (t.crash w, [.stray m.decoder m.cls]) := by
  have hstore : t.output.store m = ⟨t.output, [.stray m.decoder m.cls], .error (.stray m.decoder)⟩ := by
    unfold Output.store
    rw [htable]
    rfl
  unfold absorb
  rw [hsub]
  simp only [storeAll, hstore, List.nil_append]

section Cleared
variable {s t : Stack ε} {first seg : Segment} {w : Worker}

/-- A stack that is only cleared while nothing runs stores whatever an orderly engine reports to a run of it,
and the run ends by telling so if its worker does not break down with the engine. If it is cleared while
the run goes on, the first mark that the run takes in later is at fault: nothing is stored, and nobody is
told of an end. -/
theorem stored_unless_cleared (hidle : s.isRunning = false) (horderly : Engine.Orderly s.engine s.stages)
    (h : Relation.ReflTransGen Lives (s, first) (t, seg)) (hw : t.worker = some w) (hlive : w.phase.isOver = false) :
    (∀ stop sub e, Takes t seg w stop sub e → ∃ ms o b log,
        HoldsMarks (.ofProfiles (s.stages.map (·.profile))) (max w.config.notifyPeriod 1) ms t.output ∧
        storeAll sub.reported t.output t.broadcast [] = (o, b, log, none) ∧
        HoldsMarks (.ofProfiles (s.stages.map (·.profile))) (max w.config.notifyPeriod 1) (ms ++ sub.reported) o ∧
        (o.tracks.map fun p => p.2.marks.toList).flatten.Perm (ms ++ sub.reported)) ∧
      (∀ t' seg' w', Proceeds (t, seg) (t', seg') → t'.worker = some w' → w'.phase.isOver = true →
        (w'.phase = .ended ∧ ∃ b : Broadcast, t'.broadcast = b.send .finished) ∨
          w'.phase = .faulted ∧ Breaks t seg w) ∧
      ∀ u useg, Relation.ReflTransGen Proceeds (t.clear, seg) (u, useg) →
        ∀ w' stop count sub m rest, sub.reported = m :: rest →
          u.absorb w' stop count sub = (u.crash w', [.stray m.decoder m.cls]) := by
  have hstart : Sound s.engine s.stages s first := .of_idle hidle
  have hsound : Sound s.engine s.stages t seg := hstart.run horderly h
  obtain ⟨ms, hms⟩ := hsound.live w hw hlive
  refine ⟨fun stop sub e ht => ?_, fun t' seg' w' hp hw' hover => ?_,
    fun u useg hrun w' stop count sub m rest hsub => ?_⟩
  · obtain ⟨o, b, log, hstore, hholds⟩ := stores_of_takes hms horderly hw ht
    obtain ⟨-, hclass⟩ := classify_of_takes hms horderly hw ht
    exact ⟨ms, o, b, log, hms.holds, hstore, hholds, hholds.perm (.ofProfiles _) hclass⟩
  · rcases proceeds_cases hp with ⟨rfl, w₀, hw₀, hworks, -⟩ | hapart
    · cases hw.symm.trans hw₀
      exact ends_of_works hms horderly hw hworks hw' hover
    · -- the worker has not moved, so it is not over
      cases hw.symm.trans (hapart.stays hw')
      cases hlive.symm.trans hover
  · have htable : u.output.table = .empty := (keeps_of_run hrun).table
    exact absorb_cleared htable w' stop count hsub

/-- A run has been opened and is about to feed its first chunk, in which a mark starts. -/
theorem stored_unless_cleared_first_chunk :
    let stage : Stage := .ofProfile ⟨"d", "D", "D", [], [], [], []⟩
    let script : Script :=
      ⟨[⟨0, 1, "d", 0, []⟩, ⟨1, 2, "d", 0, []⟩], none, none, none, none, none, [], 0, []⟩
    let s : Stack Script := .create [stage] script (Config.standard.withChunkBytes 1) .running .shared
    s.isRunning = false ∧ Engine.Orderly s.engine s.stages ∧ ∃ seg t w,
      Relation.ReflTransGen Lives (s, seg) (t, seg) ∧ t.worker = some w ∧ w.phase.isOver = false ∧
        ∃ stop sub e, Takes t seg w stop sub e ∧
          (∃ o b log, storeAll sub.reported t.output t.broadcast [] = (o, b, log, none) ∧ o.stored = 1) ∧
          t.clear.absorb w stop seg.size sub = (t.clear.crash w, [.stray "d" 0]) := by
  intro stage script s
  let seg : Segment := ⟨1, 0.0, 0.0, #[0, 0], by decide⟩
  let w₀ : Worker := ⟨[stage], 0, if seg.rate == 0.0 then 1.0 else seg.rate, s.config, .queued⟩
  let w : Worker := { w₀ with phase := .feeding 0 seg.size }
  let t := ((s.launch (some (0, seg))).1.enter w₀ seg).1
  have hidle : s.isRunning = false := rfl
  have horderly : Engine.Orderly s.engine s.stages := Script.orderly (by decide) (by decide)
  have hlives : Relation.ReflTransGen Lives (s, seg) (t, seg) :=
    .head (.launch rfl 0 seg) (.single (.proceeds (.enter (w := w₀) rfl rfl)))
  have hw : t.worker = some w := rfl
  let sub : Submission := (Script.send t.engine 0 1 (seg.samples 0 1) 1).2
  have hp : w.phase = .feeding 0 seg.size := rfl
  have htakes : Takes t seg w 1 sub (Script.send t.engine 0 1 (seg.samples 0 1) 1).1 :=
    .sent hp (by decide) (by decide) rfl
  have hreported : sub.reported = [⟨0, 1, "d", 0, []⟩] := by decide +kernel
  have hstored : t.output.stored = 0 := by decide +kernel
  clear_value t sub
  obtain ⟨hstores, -, hcleared⟩ := stored_unless_cleared hidle horderly hlives hw rfl
  obtain ⟨ms, o, b, log, hms, hstore, hholds, -⟩ := hstores _ _ _ htakes
  have hlength : o.stored = 1 := by
    rw [hholds.stored, List.length_append, ← hms.stored, hstored, hreported]
    rfl
  exact ⟨hidle, horderly, seg, t, w, hlives, hw, rfl, 1, sub, _, htakes, ⟨o, b, log, hstore, hlength⟩,
    hcleared _ _ .refl w 1 seg.size _ _ _ hreported⟩

end Cleared
end Stack
end LogicDecode
