import LogicDecode.Proofs.Inboxes
import LogicDecode.Proofs.WorkerMoves

/-!
# What a run takes no notice of

A worker only sends to its subscribers, and it only sees of its engine what the calls answer. So it goes the
same way with other subscribers, and on another engine that answers alike (`Engine.Hom`): from the stack that is
`recast`, every move leads to what it leads to from the stack itself, recast, with the same events sent and the
same put on record (`Recasts`).
-/

namespace LogicDecode

/-- A map of engines that goes with every call. -/
structure Engine.Hom {δ ε : Type} [Engine δ] [Engine ε] (φ : δ → ε) : Prop where
  openSession (e : δ) : Engine.openSession (φ e) = (φ (Engine.openSession e).1, (Engine.openSession e).2)
  create (e : δ) (setup : Setup) : Engine.create (φ e) setup = (φ (Engine.create e setup).1, (Engine.create e setup).2)
  stack (e : δ) (lower upper : Nat) :
    Engine.stack (φ e) lower upper = (φ (Engine.stack e lower upper).1, (Engine.stack e lower upper).2)
  setRate (e : δ) (hz : Nat) : Engine.setRate (φ e) hz = φ (Engine.setRate e hz)
  attach (e : δ) : Engine.attach (φ e) = φ (Engine.attach e)
  start (e : δ) : Engine.start (φ e) = (φ (Engine.start e).1, (Engine.start e).2)
  send (e : δ) (start stop : Nat) (data : Bytes) (unitSize : Nat) :
    Engine.send (φ e) start stop data unitSize =
      (φ (Engine.send e start stop data unitSize).1, (Engine.send e start stop data unitSize).2)
  closeSession (e : δ) : Engine.closeSession (φ e) = φ (Engine.closeSession e)

theorem Engine.Hom.id {ε : Type} [Engine ε] : Engine.Hom (fun e : ε => e) :=
  ⟨fun _ => rfl, fun _ _ => rfl, fun _ _ _ => rfl, fun _ _ => rfl, fun _ => rfl, fun _ => rfl, fun _ _ _ _ _ => rfl,
    fun _ => rfl⟩

theorem Broadcast.sendAll_append (b : Broadcast) (es es' : List Event) :
    b.sendAll (es ++ es') = (b.sendAll es).sendAll es' := List.foldl_append

namespace Stack
variable {δ ε : Type} {φ : δ → ε}

/-- A stack with another engine and other subscribers. -/
def recast (φ : δ → ε) (b : Broadcast) (t : Stack δ) : Stack ε :=
  ⟨t.stages, φ t.engine, t.config, t.capture, t.lock, t.output, t.input, t.interrupted, b, t.worker⟩

/-- A move that leads from a stack to `p` sends some events, and from the stack that is recast it leads to `p`
recast, with the same events sent. -/
def Recasts (φ : δ → ε) (t : Stack δ) (p : Stack δ × List LogEntry) (f : Broadcast → Stack ε × List LogEntry) :
    Prop :=
  ∃ es, p.1.broadcast = t.broadcast.sendAll es ∧ ∀ b, f b = (p.1.recast φ (b.sendAll es), p.2)

/-- What subscribers are told of marks that are stored depends on the output alone. -/
theorem exists_told (marks : List Mark) (o : Output) (log : List LogEntry) :
    ∃ o' es log' f, ∀ b, storeAll marks o b log = (o', b.sendAll es, log', f) := by
  induction marks generalizing o log with
  | nil => exact ⟨o, [], log, none, fun _ => rfl⟩
  | cons m rest ih =>
    cases hr : (o.store m).result with
    | error f => exact ⟨_, [], _, some f, fun b => storeAll_cons_fault hr⟩
    | ok tell =>
      obtain ⟨o', es, log', f, hrest⟩ := ih (o.store m).output (log ++ (o.store m).log)
      refine ⟨o', (if tell then [.marks] else []) ++ es, log', f, fun b => ?_⟩
      rw [storeAll_cons hr, hrest, Broadcast.sendAll_append]
      cases tell <;> rfl

section Moves
variable (t : Stack δ) (w : Worker)

theorem recasts_latch (e : RunError) : Recasts φ t (t.latch e) fun b => (t.recast φ b).latch e := by
  have herror : ∀ b, (t.recast φ b).output.error = t.output.error := fun _ => rfl
  unfold latch
  simp only [herror]
  cases t.output.error with
  | some e' => exact ⟨[], rfl, fun _ => rfl⟩
  | none => exact ⟨[.failed e.message], rfl, fun _ => rfl⟩

theorem recasts_conclude (error : Option RunError) :
    Recasts φ t (t.conclude w error) fun b => (t.recast φ b).conclude w error := by
  unfold conclude
  cases error with
  | none => exact ⟨[.finished], rfl, fun _ => rfl⟩
  | some e =>
    obtain ⟨es, hsent, hlatch⟩ := @recasts_latch _ _ φ t e
    refine ⟨es ++ [.finished], ?_, fun b => ?_⟩
    · rw [Broadcast.sendAll_append, ← hsent]
      rfl
    · simp only [hlatch]
      rw [Broadcast.sendAll_append]
      rfl

theorem recasts_join : Recasts φ t t.join fun b => (t.recast φ b).join := by
  rcases t with ⟨stages, e, config, capture, lock, o, i, interrupted, b₀, _ | w⟩
  · exact ⟨[], rfl, fun _ => rfl⟩
  · exact ⟨[], rfl, fun _ => rfl⟩

theorem announce_recast (count : Nat) (b : Broadcast) :
    (t.recast φ b).announce count = (t.announce count).recast φ b := by
  rcases t with ⟨stages, e, config, capture, lock, o, ⟨n, c, _ | segment, startTime, rate⟩, interrupted, b₀, w⟩ <;> rfl

theorem complete_recast (b : Broadcast) : (t.recast φ b).complete = t.complete.recast φ b := by
  rcases t with ⟨stages, e, config, capture, lock, o, ⟨n, c, _ | segment, startTime, rate⟩, interrupted, b₀, w⟩ <;> rfl

variable [Engine δ] [Engine ε] (hφ : Engine.Hom φ)
include hφ

theorem build_recast (stages : List Stage) (e : δ) (lower : Option Nat) :
    build (φ e) lower stages = (φ (build e lower stages).1, (build e lower stages).2) := by
  induction stages generalizing e lower with
  | nil => rfl
  | cons stage rest ih =>
    unfold build
    rw [hφ.create]
    rcases Engine.create e stage.setup with ⟨e', c | n⟩
    · rfl
    cases lower with
    | none => exact ih e' _
    | some l =>
      dsimp only
      rw [hφ.stack]
      rcases Engine.stack e' l n with ⟨e'', c | ⟨⟩⟩
      · rfl
      · exact ih e'' _

theorem recasts_giveUp (e : RunError) : Recasts φ t (t.giveUp w e) fun b => (t.recast φ b).giveUp w e := by
  have hclose : ∀ b, { t.recast φ b with engine := Engine.closeSession (t.recast φ b).engine } =
      recast φ b { t with engine := Engine.closeSession t.engine } := fun b => by
    unfold recast
    rw [hφ.closeSession]
  unfold giveUp
  simp only [hclose]
  exact recasts_conclude _ _ _

theorem crash_recast (b : Broadcast) : (t.recast φ b).crash w = (t.crash w).recast φ b := by
  unfold crash recast
  rw [hφ.closeSession]
  rfl

theorem recasts_crash (log : List LogEntry) :
    Recasts φ t (t.crash w, log) fun b => ((t.recast φ b).crash w, log) :=
  ⟨[], rfl, fun b => congrArg (·, log) (crash_recast t w hφ b)⟩

/-- The engine of the stack that is recast opens the session alike, and whoever enters sees no more of it. -/
theorem recasts_enter (seg : Segment) : Recasts φ t (t.enter w seg) fun b => (t.recast φ b).enter w seg := by
  have hopen : ∀ b, Engine.openSession (t.recast φ b).engine =
      (φ (Engine.openSession t.engine).1, (Engine.openSession t.engine).2) := fun _ => hφ.openSession t.engine
  unfold enter
  simp only [hopen]
  rcases Engine.openSession t.engine with ⟨e₁, c | ⟨⟩⟩
  · exact recasts_conclude { t with engine := e₁ } w _
  dsimp only
  simp only [build_recast hφ]
  rcases build e₁ none w.stages with ⟨e₂, (c | f) | ⟨⟩⟩
  · exact recasts_giveUp { t with engine := e₂ } w hφ c
  · exact recasts_crash { t with engine := e₂ } w hφ []
  dsimp only
  simp only [hφ.setRate, hφ.attach, hφ.start]
  rcases Engine.start (Engine.attach (Engine.setRate e₂ w.rate.toUInt64.toNat)) with ⟨e₃, c | ⟨⟩⟩
  · exact recasts_giveUp { t with engine := e₃, input := { t.input with count := seg.size } } w hφ _
  · exact ⟨[], rfl, fun _ => rfl⟩

theorem recasts_absorb (stop count : Nat) (sub : Submission) :
    Recasts φ t (t.absorb w stop count sub) fun b => (t.recast φ b).absorb w stop count sub := by
  obtain ⟨o, es, log, fault, hstore⟩ := exists_told sub.reported t.output []
  have houtput : ∀ b, (t.recast φ b).output = t.output := fun _ => rfl
  have hcrash : ∀ b, { t.recast φ b with output := o, broadcast := (t.recast φ b).broadcast.sendAll es }.crash w =
      recast φ (b.sendAll es) ({ t with output := o, broadcast := t.broadcast.sendAll es }.crash w) := fun b =>
    crash_recast { t with output := o, broadcast := t.broadcast.sendAll es } w hφ (b.sendAll es)
  unfold absorb
  simp only [houtput, hstore]
  rcases sub.outcome with (c | f) | ⟨⟩ <;> cases fault
  · exact ⟨es, rfl, fun _ => rfl⟩
  · exact ⟨es, rfl, fun b => by simp only [hcrash]⟩
  · exact ⟨es, rfl, fun b => by simp only [hcrash]⟩
  · exact ⟨es, rfl, fun b => by simp only [hcrash]⟩
  · exact ⟨es, rfl, fun _ => rfl⟩
  · exact ⟨es, rfl, fun b => by simp only [hcrash]⟩

theorem recasts_submit (seg : Segment) (fed count : Nat) :
    Recasts φ t (t.submit w seg fed count) fun b => (t.recast φ b).submit w seg fed count := by
  unfold submit
  cases checkedAdd fed (w.config.chunkSamples seg.unitSize) with
  | error f => exact recasts_crash t w hφ []
  | ok reach =>
    have hsend : ∀ b, Engine.send (t.recast φ b).engine = Engine.send (φ t.engine) := fun _ => rfl
    simp only [hsend, hφ.send]
    rcases Engine.send t.engine fed (min reach count) (seg.samples fed (min reach count)) seg.unitSize with ⟨e, sub⟩
    dsimp only
    split
    · exact ⟨[], rfl, fun _ => rfl⟩
    · exact recasts_absorb { t with engine := e } w hφ _ _ _

theorem recasts_resume : Recasts φ t t.resume fun b => (t.recast φ b).resume := by
  have hworker : ∀ b, (t.recast φ b).worker = t.worker := fun _ => rfl
  unfold resume
  simp only [hworker]
  cases t.worker with
  | none => exact ⟨[], rfl, fun _ => rfl⟩
  | some w =>
    dsimp only
    cases w.phase with
    | held stop count sub => exact recasts_absorb t w hφ stop count sub
    | queued | feeding | waiting | closing | ended | faulted => exact ⟨[], rfl, fun _ => rfl⟩

theorem recasts_close (error : Option RunError) :
    Recasts φ t
      ({ t with broadcast := t.broadcast.send .marks, engine := Engine.closeSession t.engine }.conclude w error)
      fun b => { t.recast φ b with
        broadcast := (t.recast φ b).broadcast.send .marks
        engine := Engine.closeSession (t.recast φ b).engine }.conclude w error := by
  have hclose : ∀ b, { t.recast φ b with
      broadcast := (t.recast φ b).broadcast.send .marks, engine := Engine.closeSession (t.recast φ b).engine } =
      recast φ (b.send .marks)
        { t with broadcast := t.broadcast.send .marks, engine := Engine.closeSession t.engine } := fun b => by
    unfold recast
    rw [hφ.closeSession]
  obtain ⟨es, hsent, hconclude⟩ := @recasts_conclude _ _ φ
    { t with broadcast := t.broadcast.send .marks, engine := Engine.closeSession t.engine } w error
  exact ⟨.marks :: es, hsent, fun b => (congrArg (·.conclude w error) (hclose b)).trans (hconclude (b.send .marks))⟩

/-- The worker of the stack that is recast makes a move just when that of the stack does. -/
theorem exists_step?_recast (seg : Segment) :
    ∃ es, (∀ p ∈ t.step? seg, p.1.broadcast = t.broadcast.sendAll es) ∧ ∀ b,
      (t.recast φ b).step? seg = (t.step? seg).map fun p => (p.1.recast φ (b.sendAll es), p.2) := by
  have hsome : ∀ {p : Stack δ × List LogEntry} {f : Broadcast → Stack ε × List LogEntry}, Recasts φ t p f →
      ∃ es, (∀ p' ∈ some p, p'.1.broadcast = t.broadcast.sendAll es) ∧ ∀ b,
        some (f b) = (some p).map fun p => (p.1.recast φ (b.sendAll es), p.2) := by
    rintro p f ⟨es, hsent, hf⟩
    exact ⟨es, fun p' hp' => Option.some.inj hp' ▸ hsent, fun b => congrArg some (hf b)⟩
  have hsilent : ∀ w p, Recasts φ t (t.setPhase w p, []) fun b => ((t.recast φ b).setPhase w p, []) :=
    fun w p => ⟨[], rfl, fun _ => rfl⟩
  rcases t with ⟨stages, e, config, capture, lock, o, i, interrupted, b₀, _ | w⟩
  · exact ⟨[], by simp [step?], fun _ => rfl⟩
  unfold step?
  dsimp only [recast]
  cases w.phase with
  | queued | held | ended | faulted => exact ⟨[], by simp, fun _ => rfl⟩
  | feeding fed count =>
    cases interrupted with
    | true => exact hsome (hsilent w _)
    | false =>
      by_cases hlt : fed < count
      · simp only [hlt, Bool.false_eq_true, if_false, if_true]
        exact hsome (recasts_submit _ w hφ seg fed count)
      · simp only [hlt, Bool.false_eq_true, if_false]
        exact hsome (hsilent w _)
  | waiting fed =>
    have hdemand : ∀ b, demand ⟨stages, φ e, config, capture, lock, o, i, interrupted, b, some w⟩ fed =
        demand ⟨stages, e, config, capture, lock, o, i, interrupted, b₀, some w⟩ fed := fun _ => rfl
    simp only [hdemand]
    generalize demand ⟨stages, e, config, capture, lock, o, i, interrupted, b₀, some w⟩ fed = d
    cases d.waits with
    | true => exact ⟨[], by simp, fun _ => rfl⟩
    | false =>
      cases d.next? with
      | some count => exact hsome (hsilent w _)
      | none => exact hsome (hsilent w _)
  | closing error => exact hsome (recasts_close _ w hφ error)

end Moves
end Stack
end LogicDecode
