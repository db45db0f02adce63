import LogicDecode.Proofs.Storing
import LogicDecode.Run.Lifecycle
import Mathlib.Logic.Relation

/-!
# What a worker can do

`Works seg t w t'` lists what the worker `w` of a stack `t` can do next, with all that decides it: one case
for each way in which a move of it, its entering, or the end of a wait for its engine can go. `Proceeds` puts such
moves beside what happens to a stack from outside while nobody forgets its results, and `Apart` is all that the latter
can do to a run. Invariants of runs go by these two (`proceeds_cases`) and do not open the moves again.
-/

namespace LogicDecode

namespace Engine
variable {ε : Type} [Engine ε]

/-- One call of an engine. -/
inductive Leads : ε → ε → Prop
  | openSession {e : ε} : Leads e (Engine.openSession e).1
  | create {e : ε} (setup : Setup) : Leads e (Engine.create e setup).1
  | stack {e : ε} (lower upper : Nat) : Leads e (Engine.stack e lower upper).1
  | setRate {e : ε} (hz : Nat) : Leads e (Engine.setRate e hz)
  | attach {e : ε} : Leads e (Engine.attach e)
  | start {e : ε} : Leads e (Engine.start e).1
  | send {e : ε} (start stop : Nat) (data : Bytes) (unitSize : Nat) :
      Leads e (Engine.send e start stop data unitSize).1
  | closeSession {e : ε} : Leads e (Engine.closeSession e)

/-- Any number of calls of an engine. -/
def Reaches : ε → ε → Prop := Relation.ReflTransGen Leads

end Engine

namespace Stack
variable {ε : Type}

theorem conclude_eq (t : Stack ε) (w : Worker) (e : Option RunError) :
    ∃ b : Broadcast, (t.conclude w e).1 = { t with
      output := { t.output with error := t.output.error.or e }
      broadcast := b.send .finished
      worker := some { w with phase := .ended } } := by
  cases e with
  | none => exact ⟨t.broadcast, by simp [conclude, setPhase]⟩
  | some e =>
    unfold conclude latch
    cases he : t.output.error with
    | none => exact ⟨t.broadcast.send (.failed e.message), rfl⟩
    | some e' =>
      have hsame : { t.output with error := some e' } = t.output := by rw [← he]
      exact ⟨t.broadcast, by simp only [setPhase, Option.or_some, hsame, Option.getD_some]⟩

@[simp] theorem worker_conclude (t : Stack ε) (w : Worker) (e : Option RunError) :
    (t.conclude w e).1.worker = some { w with phase := .ended } := by
  obtain ⟨b, hb⟩ := conclude_eq t w e
  rw [hb]

@[simp] theorem engine_conclude (t : Stack ε) (w : Worker) (e : Option RunError) :
    (t.conclude w e).1.engine = t.engine := by
  obtain ⟨b, hb⟩ := conclude_eq t w e
  rw [hb]

@[simp] theorem input_conclude (t : Stack ε) (w : Worker) (e : Option RunError) :
    (t.conclude w e).1.input = t.input := by
  obtain ⟨b, hb⟩ := conclude_eq t w e
  rw [hb]

theorem exists_announce (t : Stack ε) (count : Nat) : ∃ i, t.announce count = { t with input := i } := by
  unfold announce
  split
  · exact ⟨_, rfl⟩
  · exact ⟨t.input, rfl⟩

theorem exists_complete (t : Stack ε) : ∃ i, t.complete = { t with input := i } := by
  unfold complete
  split
  · exact ⟨_, rfl⟩
  · exact ⟨t.input, rfl⟩

/-- A stack that has no run to begin only forgets its results. -/
theorem exists_launch_of_idle (t : Stack ε) {found : Option (Nat × Segment)}
    (h : t.stages.all Stage.isComplete = false ∨ found = none) :
    ∃ o b, (t.launch found).1 = { t with
      input := { t.input.clear with segment := none }, output := o, broadcast := b } := by
  unfold launch
  dsimp only [Stack.clear]
  cases hcomplete : t.stages.all Stage.isComplete with
  | false => exact ⟨_, _, rfl⟩
  | true =>
    rw [hcomplete] at h
    obtain rfl : found = none := by simpa using h
    exact ⟨_, _, rfl⟩

theorem exists_launch (t : Stack ε) (hcomplete : t.stages.all Stage.isComplete = true) (number : Nat)
    (seg : Segment) : ∃ i o rate, (t.launch (some (number, seg))).1 = { t with
      input := i, output := o, interrupted := false
      worker := some ⟨t.stages, number, rate, t.config, .queued⟩ } ∧ i.segment = some number := by
  unfold launch
  dsimp only [Stack.clear]
  rw [hcomplete, if_neg (by decide)]
  exact ⟨_, _, _, rfl, rfl⟩

/-- What a run leaves as it is. -/
structure Keeps (t t' : Stack ε) : Prop where
  stages : t'.stages = t.stages
  lock : t'.lock = t.lock
  segment : t'.input.segment = t.input.segment
  table : t'.output.table = t.output.table

theorem Keeps.refl (t : Stack ε) : Keeps t t := ⟨rfl, rfl, rfl, rfl⟩

theorem Keeps.trans {t t' t'' : Stack ε} (h : Keeps t t') (h' : Keeps t' t'') : Keeps t t'' :=
  ⟨h'.stages.trans h.stages, h'.lock.trans h.lock, h'.segment.trans h.segment, h'.table.trans h.table⟩

variable [Engine ε]

theorem reaches_build (stages : List Stage) (e : ε) (lower : Option Nat) :
    Engine.Reaches e (build e lower stages).1 := by
  induction stages generalizing e lower with
  | nil => exact .refl
  | cons stage rest ih =>
    have hcreate := Engine.Leads.create (e := e) stage.setup
    unfold build
    rcases hc : Engine.create e stage.setup with ⟨e', c | n⟩
    · rw [hc] at hcreate
      exact .single hcreate
    rw [hc] at hcreate
    cases lower with
    | none => exact .head hcreate (ih e' _)
    | some l =>
      have hstack := Engine.Leads.stack (e := e') l n
      dsimp only
      rcases hs : Engine.stack e' l n with ⟨e'', c | ⟨⟩⟩
      · rw [hs] at hstack
        exact .head hcreate (.single hstack)
      · rw [hs] at hstack
        exact .head hcreate (.head hstack (ih e'' _))

/-- How a worker takes in what the engine made of the samples up to `stop`. -/
inductive Absorbs (t : Stack ε) (w : Worker) (stop count : Nat) (sub : Submission) : Stack ε → Prop
  | misfiled {o : Output} {b : Broadcast} {log : List LogEntry} {f : Fault}
      (hs : storeAll sub.reported t.output t.broadcast [] = (o, b, log, some f)) :
      Absorbs t w stop count sub ({ t with output := o, broadcast := b }.crash w)
  | broken {o : Output} {b : Broadcast} {log : List LogEntry} {f : Fault}
      (hs : storeAll sub.reported t.output t.broadcast [] = (o, b, log, none))
      (hf : sub.outcome = .error (.fault f)) :
      Absorbs t w stop count sub ({ t with output := o, broadcast := b }.crash w)
  | refused {o : Output} {b : Broadcast} {log : List LogEntry} {c : EngineError}
      (hs : storeAll sub.reported t.output t.broadcast [] = (o, b, log, none))
      (hc : sub.outcome = .error (.refused c)) :
      Absorbs t w stop count sub ({ t with output := o, broadcast := b }.setPhase w (.closing (some (.submission c))))
  | taken {o : Output} {b : Broadcast} {log : List LogEntry}
      (hs : storeAll sub.reported t.output t.broadcast [] = (o, b, log, none)) (hok : sub.outcome = .ok ()) :
      Absorbs t w stop count sub
        ({ t with output := { o with decoded := stop }, broadcast := b }.setPhase w (.feeding stop count))

theorem absorbs (t : Stack ε) (w : Worker) (stop count : Nat) (sub : Submission) :
    Absorbs t w stop count sub (t.absorb w stop count sub).1 := by
  unfold absorb
  rcases hs : storeAll sub.reported t.output t.broadcast [] with ⟨o, b, log, fault⟩
  rcases ho : sub.outcome with (c | f) | ⟨⟩
  · cases fault with
    | none => exact .refused hs ho
    | some f => exact .misfiled hs
  · cases fault with
    | none => exact .broken hs ho
    | some f => exact .misfiled hs
  · cases fault with
    | none => exact .taken hs ho
    | some f => exact .misfiled hs

/-- What a worker can do next. -/
inductive Works (seg : Segment) (t : Stack ε) (w : Worker) : Stack ε → Prop
  /-- No session is to be had. -/
  | turnedAway {e : ε} {n : Nat} {c : RunError} (hp : w.phase = .queued)
      (hn : n = t.input.count ∨ n = seg.size) (he : Engine.Reaches t.engine e) :
      Works seg t w ({ t with engine := e, input := { t.input with count := n } }.conclude w (some c)).1
  | unbuilt {e : ε} {f : Fault} (hp : w.phase = .queued)
      (hf : (build (Engine.openSession t.engine).1 none w.stages).2 = .error (.fault f))
      (he : Engine.Reaches t.engine e) : Works seg t w ({ t with engine := e }.setPhase w .faulted)
  | opened {e₁ e₂ e₃ : ε} (hp : w.phase = .queued) (ho : Engine.openSession t.engine = (e₁, .ok ()))
      (hb : build e₁ none w.stages = (e₂, .ok ()))
      (hs : Engine.start (Engine.attach (Engine.setRate e₂ w.rate.toUInt64.toNat)) = (e₃, .ok ())) :
      Works seg t w
        ({ t with engine := e₃, input := { t.input with count := seg.size } }.setPhase w (.feeding 0 seg.size))
  | stopped {fed count : Nat} (hp : w.phase = .feeding fed count) (hi : t.interrupted = true) :
      Works seg t w (t.setPhase w (.closing none))
  | caughtUp {fed count : Nat} (hp : w.phase = .feeding fed count) (hi : t.interrupted = false)
      (hle : count ≤ fed) : Works seg t w (t.setPhase w (.waiting fed))
  | overflow {fed count : Nat} {f : Fault} (hp : w.phase = .feeding fed count) (hi : t.interrupted = false)
      (hf : checkedAdd fed (w.config.chunkSamples seg.unitSize) = .error f) : Works seg t w (t.crash w)
  | held {fed count stop : Nat} {e : ε} {sub : Submission} (hp : w.phase = .feeding fed count)
      (hi : t.interrupted = false) (hlt : fed < stop)
      (hstop : stop = min (fed + w.config.chunkSamples seg.unitSize) count)
      (hs : Engine.send t.engine fed stop (seg.samples fed stop) seg.unitSize = (e, sub))
      (hsum : fed + w.config.chunkSamples seg.unitSize < wordBound) (hheld : sub.held = true) :
      Works seg t w ({ t with engine := e }.setPhase w (.held stop count sub))
  | sent {fed count stop : Nat} {e : ε} {sub : Submission} {t' : Stack ε} (hp : w.phase = .feeding fed count)
      (hi : t.interrupted = false) (hlt : fed < stop)
      (hstop : stop = min (fed + w.config.chunkSamples seg.unitSize) count)
      (hs : Engine.send t.engine fed stop (seg.samples fed stop) seg.unitSize = (e, sub))
      (ha : Absorbs { t with engine := e } w stop count sub t')
      (hsum : fed + w.config.chunkSamples seg.unitSize < wordBound) (hheld : sub.held = false) : Works seg t w t'
  | released {stop count : Nat} {sub : Submission} {t' : Stack ε} (hp : w.phase = .held stop count sub)
      (ha : Absorbs t w stop count sub t') : Works seg t w t'
  | roused {fed count : Nat} (hp : w.phase = .waiting fed) (hw : (t.demand fed).waits = false)
      (hn : (t.demand fed).next? = some count) : Works seg t w (t.setPhase w (.feeding fed count))
  | done {fed : Nat} (hp : w.phase = .waiting fed) (hw : (t.demand fed).waits = false)
      (hn : (t.demand fed).next? = none) : Works seg t w (t.setPhase w (.closing none))
  | closed {error : Option RunError} (hp : w.phase = .closing error) :
      Works seg t w ({ t with
        broadcast := t.broadcast.send .marks, engine := Engine.closeSession t.engine }.conclude w error).1

section Inversion
variable {seg : Segment} {t t' : Stack ε} {w : Worker} {log : List LogEntry}

theorem works_of_enter (hp : w.phase = .queued) : Works seg t w (t.enter w seg).1 := by
  have hopen : Engine.Reaches t.engine (Engine.openSession t.engine).1 := .single .openSession
  unfold enter
  rcases ho : Engine.openSession t.engine with ⟨e₁, c | ⟨⟩⟩
  · rw [ho] at hopen
    exact .turnedAway hp (.inl rfl) hopen
  rw [ho] at hopen
  have hbuild := hopen.trans (reaches_build w.stages e₁ none)
  dsimp only
  rcases hb : build e₁ none w.stages with ⟨e₂, (c | f) | ⟨⟩⟩
  · rw [hb] at hbuild
    exact .turnedAway hp (.inl rfl) (hbuild.tail .closeSession)
  · rw [hb] at hbuild
    exact .unbuilt hp (f := f) (by rw [ho, hb]) (hbuild.tail .closeSession)
  rw [hb] at hbuild
  have hstart := ((hbuild.tail (.setRate w.rate.toUInt64.toNat)).tail .attach).tail .start
  dsimp only
  rcases hs : Engine.start (Engine.attach (Engine.setRate e₂ w.rate.toUInt64.toNat)) with ⟨e₃, c | ⟨⟩⟩
  · rw [hs] at hstart
    exact .turnedAway hp (.inr rfl) (hstart.tail .closeSession)
  · exact .opened hp ho hb hs

theorem works_of_submit {fed count : Nat} (hp : w.phase = .feeding fed count) (hi : t.interrupted = false)
    (hlt : fed < count) : Works seg t w (t.submit w seg fed count).1 := by
  unfold submit
  cases hsum : checkedAdd fed (w.config.chunkSamples seg.unitSize) with
  | error f => exact .overflow hp hi hsum
  | ok reach =>
    obtain ⟨rfl, hbound⟩ := checkedAdd_eq_ok.1 hsum
    have hpos : 0 < w.config.chunkSamples seg.unitSize := Nat.lt_of_lt_of_le Nat.zero_lt_one (Nat.le_max_right ..)
    have hstop : fed < min (fed + w.config.chunkSamples seg.unitSize) count := Nat.lt_min.2 ⟨by omega, hlt⟩
    dsimp only
    rcases hs : Engine.send t.engine fed (min (fed + w.config.chunkSamples seg.unitSize) count)
      (seg.samples fed (min (fed + w.config.chunkSamples seg.unitSize) count)) seg.unitSize with ⟨e, sub⟩
    dsimp only
    split
    · rename_i hheld
      exact .held hp hi hstop rfl hs hbound hheld
    · rename_i hheld
      exact .sent hp hi hstop rfl hs (absorbs ..) hbound (Bool.eq_false_iff.2 hheld)

theorem works_of_step (h : t.step? seg = some (t', log)) : ∃ w, t.worker = some w ∧ Works seg t w t' := by
  unfold step? at h
  cases hw : t.worker with
  | none => simp [hw] at h
  | some w =>
    refine ⟨w, rfl, ?_⟩
    rw [hw] at h
    dsimp only at h
    cases hp : w.phase with
    | queued | held | ended | faulted => simp [hp] at h
    | feeding fed count =>
      rw [hp] at h
      dsimp only at h
      split at h
      · rename_i hi
        cases h
        exact .stopped hp hi
      · rename_i hi
        rw [Bool.not_eq_true] at hi
        split at h
        · rename_i hlt
          obtain rfl : (t.submit w seg fed count).1 = t' := congrArg Prod.fst (Option.some.inj h)
          exact works_of_submit hp hi hlt
        · rename_i hge
          cases h
          exact .caughtUp hp hi (Nat.le_of_not_lt hge)
    | waiting fed =>
      rw [hp] at h
      dsimp only at h
      split at h
      · cases h
      · rename_i hwaits
        rw [Bool.not_eq_true] at hwaits
        split at h
        · rename_i hn
          cases h
          exact .roused hp hwaits hn
        · rename_i hn
          cases h
          exact .done hp hwaits hn
    | closing error =>
      rw [hp] at h
      have heq : ({ t with
          broadcast := t.broadcast.send .marks, engine := Engine.closeSession t.engine }.conclude w error).1 = t' := by
        rw [hw]
        exact congrArg Prod.fst (Option.some.inj h)
      rw [← heq]
      exact .closed hp

theorem works_of_resume {stop count : Nat} {sub : Submission} (hw : t.worker = some w)
    (hp : w.phase = .held stop count sub) : Works seg t w t.resume.1 := by
  unfold resume
  rw [hw]
  dsimp only
  rw [hp]
  exact .released hp (absorbs t w stop count sub)

end Inversion

/-- What can happen to a stack and to the segment of its run while nobody forgets its results. -/
inductive Proceeds : Stack ε × Segment → Stack ε × Segment → Prop
  | append {t : Stack ε} {seg seg' : Segment} {units : Bytes} (h : seg.append units = .ok seg') :
      Proceeds (t, seg) (t, seg')
  /-- The samples that there are by now are announced. -/
  | announce {t : Stack ε} {seg : Segment} : Proceeds (t, seg) (t.announce seg.size, seg)
  | complete {t : Stack ε} {seg : Segment} : Proceeds (t, seg) (t.complete, seg)
  | capture {t : Stack ε} {seg : Segment} (c : CaptureState) : Proceeds (t, seg) ({ t with capture := c }, seg)
  | interrupt {t : Stack ε} {seg : Segment} : Proceeds (t, seg) ({ t with interrupted := true }, seg)
  /-- Subscribers come, read and leave. -/
  | subscribers {t : Stack ε} {seg : Segment} (b : Broadcast) : Proceeds (t, seg) ({ t with broadcast := b }, seg)
  /-- The worker gets the engine's lock. -/
  | enter {t : Stack ε} {seg : Segment} {w : Worker} (hw : t.worker = some w) (hp : w.phase = .queued) :
      Proceeds (t, seg) ((t.enter w seg).1, seg)
  | step {t t' : Stack ε} {seg : Segment} {log : List LogEntry} (h : t.step? seg = some (t', log)) :
      Proceeds (t, seg) (t', seg)
  /-- The engine lets go of the worker. -/
  | resume {t : Stack ε} {seg : Segment} {w : Worker} {stop count : Nat} {sub : Submission}
      (hw : t.worker = some w) (hp : w.phase = .held stop count sub) : Proceeds (t, seg) (t.resume.1, seg)
  /-- A run that is over is waited for. -/
  | join {t : Stack ε} {seg : Segment} {w : Worker} (hw : t.worker = some w) (ho : w.phase.isOver = true) :
      Proceeds (t, seg) (t.join.1, seg)

section Frame
variable {seg seg' : Segment} {t t' : Stack ε} {w : Worker}

theorem keeps_of_absorbs {stop count : Nat} {sub : Submission} (h : Absorbs t w stop count sub t') :
    Keeps t t' ∧ ∃ p, t'.worker = some { w with phase := p } := by
  have htable : ∀ {o : Output} {b : Broadcast} {log : List LogEntry} {fault : Option Fault},
      storeAll sub.reported t.output t.broadcast [] = (o, b, log, fault) → o.table = t.output.table := by
    intro o b log fault hs
    have := (storeAll_keeps sub.reported t.output t.broadcast []).2.2
    rwa [hs] at this
  cases h with
  | misfiled hs | broken hs | refused hs | taken hs =>
    have hkept := htable hs
    exact ⟨⟨rfl, rfl, rfl, hkept⟩, _, rfl⟩

/-- What is left of the results when all marks were stored: only an answer that grants the samples counts them. -/
theorem output_of_absorbs {stop count : Nat} {sub : Submission} {o : Output} {b : Broadcast} {log : List LogEntry}
    (h : Absorbs t w stop count sub t') (hs : storeAll sub.reported t.output t.broadcast [] = (o, b, log, none)) :
    ((∃ f, sub.outcome = .error f) ∧ t'.output = o) ∨ sub.outcome = .ok () ∧ t'.output = { o with decoded := stop } := by
  cases h with
  | misfiled hs' => cases hs.symm.trans hs'
  | broken hs' hf =>
    cases hs.symm.trans hs'
    exact .inl ⟨⟨_, hf⟩, rfl⟩
  | refused hs' hc =>
    cases hs.symm.trans hs'
    exact .inl ⟨⟨_, hc⟩, rfl⟩
  | taken hs' hok =>
    cases hs.symm.trans hs'
    exact .inr ⟨hok, rfl⟩

theorem isOver_of_works (h : Works seg t w t') : w.phase.isOver = false := by
  cases h with
  | turnedAway hp | unbuilt hp | opened hp | stopped hp | caughtUp hp | overflow hp | held hp | sent hp
  | released hp | roused hp | done hp | closed hp => rw [hp]; rfl

theorem keeps_of_works (h : Works seg t w t') : Keeps t t' ∧ ∃ p, t'.worker = some { w with phase := p } := by
  have hconclude : ∀ (u : Stack ε) (e : Option RunError),
      Keeps u (u.conclude w e).1 ∧ ∃ p, (u.conclude w e).1.worker = some { w with phase := p } := by
    intro u e
    obtain ⟨b, hb⟩ := conclude_eq u w e
    rw [hb]
    exact ⟨⟨rfl, rfl, rfl, rfl⟩, _, rfl⟩
  cases h with
  | turnedAway | closed =>
    obtain ⟨hkeeps, hworker⟩ := hconclude _ _
    exact ⟨⟨hkeeps.stages, hkeeps.lock, hkeeps.segment, hkeeps.table⟩, hworker⟩
  | unbuilt | opened | stopped | caughtUp | overflow | held | roused | done =>
    exact ⟨⟨rfl, rfl, rfl, rfl⟩, _, rfl⟩
  | sent _ _ _ _ _ ha =>
    obtain ⟨hkeeps, hworker⟩ := keeps_of_absorbs ha
    exact ⟨⟨hkeeps.stages, hkeeps.lock, hkeeps.segment, hkeeps.table⟩, hworker⟩
  | released _ ha => exact keeps_of_absorbs ha

/-- Every move of a worker changes its phase. -/
theorem phase_ne_of_works (h : Works seg t w t') {w' : Worker} (hw' : t'.worker = some w') : w'.phase ≠ w.phase := by
  cases h with
  | turnedAway hp | closed hp =>
    rw [worker_conclude] at hw'
    cases hw'
    rw [hp]
    nofun
  | unbuilt hp | opened hp | stopped hp | caughtUp hp | overflow hp | held hp | roused hp | done hp =>
    cases hw'
    rw [hp]
    nofun
  | sent hp _ hlt _ _ ha =>
    cases ha with
    | misfiled | broken | refused =>
      cases hw'
      rw [hp]
      nofun
    | taken =>
      cases hw'
      rw [hp]
      intro hsame
      cases hsame
      exact Nat.lt_irrefl _ hlt
  | released hp ha =>
    cases ha with
    | misfiled | broken | refused | taken =>
      cases hw'
      rw [hp]
      nofun

/-- What is no move of the worker leaves alone. -/
structure Apart (p q : Stack ε × Segment) : Prop where
  keeps : Keeps p.1 q.1
  output : q.1.output = p.1.output
  engine : q.1.engine = p.1.engine
  /-- Only a worker that is over is forgotten. -/
  worker : q.1.worker = p.1.worker ∨ q.1.worker = none ∧ ∃ w, p.1.worker = some w ∧ w.phase.isOver = true
  interrupted : q.1.interrupted = false → p.1.interrupted = false
  segment : q.2 = p.2 ∨ ∃ units, p.2.append units = .ok q.2
  /-- Only what subscribers do concerns them, and it concerns nothing else. -/
  broadcast : q.1.broadcast = p.1.broadcast ∨ q = ({ p.1 with broadcast := q.1.broadcast }, p.2)

omit [Engine ε] in
/-- No worker comes up behind another: the one that is there was there before. -/
theorem Apart.stays {p q : Stack ε × Segment} (h : Apart p q) (hw : q.1.worker = some w) : p.1.worker = some w := by
  rcases h.worker with hsame | ⟨hgone, -⟩
  · exact hsame.symm.trans hw
  · cases hgone.symm.trans hw

theorem not_stays_of_works (hw : t.worker = some w) (h : Works seg t w t') :
    ¬ ∀ w', t'.worker = some w' → t.worker = some w' := by
  intro hstays
  obtain ⟨-, p, hw'⟩ := keeps_of_works h
  have hsame := Option.some.inj (hw.symm.trans (hstays _ hw'))
  exact phase_ne_of_works h hw' (congrArg Worker.phase hsame).symm

/-- What happens is a move of the worker, which enters if it is queued, or leaves the run alone. -/
theorem proceeds_cases (h : Proceeds (t, seg) (t', seg')) :
    (seg' = seg ∧ ∃ w, t.worker = some w ∧ Works seg t w t' ∧ (w.phase = .queued → t' = (t.enter w seg).1)) ∨
      Apart (t, seg) (t', seg') := by
  cases h with
  | append happend => exact .inr ⟨.refl _, rfl, rfl, .inl rfl, id, .inr ⟨_, happend⟩, .inl rfl⟩
  | capture => exact .inr ⟨⟨rfl, rfl, rfl, rfl⟩, rfl, rfl, .inl rfl, id, .inl rfl, .inl rfl⟩
  | subscribers => exact .inr ⟨⟨rfl, rfl, rfl, rfl⟩, rfl, rfl, .inl rfl, id, .inl rfl, .inr rfl⟩
  | interrupt => exact .inr ⟨⟨rfl, rfl, rfl, rfl⟩, rfl, rfl, .inl rfl, nofun, .inl rfl, .inl rfl⟩
  | announce =>
    refine .inr ?_
    unfold announce
    split <;> exact ⟨⟨rfl, rfl, rfl, rfl⟩, rfl, rfl, .inl rfl, id, .inl rfl, .inl rfl⟩
  | complete =>
    refine .inr ?_
    unfold complete
    split <;> exact ⟨⟨rfl, rfl, rfl, rfl⟩, rfl, rfl, .inl rfl, id, .inl rfl, .inl rfl⟩
  | enter hw hp => exact .inl ⟨rfl, _, hw, works_of_enter hp, fun _ => rfl⟩
  | step hstep =>
    obtain ⟨w, hw, hworks⟩ := works_of_step hstep
    exact .inl ⟨rfl, w, hw, hworks, fun hp => by simp [step?, hw, hp] at hstep⟩
  | resume hw hp => exact .inl ⟨rfl, _, hw, works_of_resume hw hp, fun hq => nomatch hp.symm.trans hq⟩
  | join hw ho =>
    refine .inr ?_
    unfold join
    rw [hw]
    exact ⟨⟨rfl, rfl, rfl, rfl⟩, rfl, rfl, .inr ⟨rfl, _, hw, ho⟩, id, .inl rfl, .inl rfl⟩

theorem apart_of_stays (h : Proceeds (t, seg) (t', seg')) (hstays : ∀ w, t'.worker = some w → t.worker = some w) :
    Apart (t, seg) (t', seg') := by
  rcases proceeds_cases h with ⟨-, w, hw, hworks, -⟩ | hapart
  · exact absurd hstays (not_stays_of_works hw hworks)
  · exact hapart

theorem keeps_of_proceeds (h : Proceeds (t, seg) (t', seg')) : Keeps t t' := by
  rcases proceeds_cases h with ⟨-, w, -, hworks, -⟩ | hapart
  · exact (keeps_of_works hworks).1
  · exact hapart.keeps

theorem keeps_of_run {p q : Stack ε × Segment} (h : Relation.ReflTransGen Proceeds p q) : Keeps p.1 q.1 := by
  induction h with
  | refl => exact .refl _
  | tail _ hstep ih => exact ih.trans (keeps_of_proceeds hstep)

/-- The moves of a worker that settles. -/
theorem steps_settle (t : Stack ε) (seg : Segment) :
    Relation.ReflTransGen (fun t t' => ∃ log, t.step? seg = some (t', log)) t (t.settle seg).1 := by
  have hmoves : ∀ (n : Nat) (t : Stack ε) (log : List LogEntry),
      Relation.ReflTransGen (fun t t' => ∃ log, t.step? seg = some (t', log)) t (moves seg n (t, log)).1 := by
    intro n
    induction n with
    | zero => exact fun t log => .refl
    | succ n ih =>
      intro t log
      unfold moves
      split
      · exact .refl
      · rename_i t' more hstep
        exact .head ⟨_, hstep⟩ (ih t' _)
  exact hmoves _ t []

theorem proceeds_settle (t : Stack ε) (seg : Segment) :
    Relation.ReflTransGen Proceeds (t, seg) ((t.settle seg).1, seg) :=
  (steps_settle t seg).lift (fun t => (t, seg)) fun _ _ ⟨_, hstep⟩ => .step hstep

end Frame

end Stack
end LogicDecode
