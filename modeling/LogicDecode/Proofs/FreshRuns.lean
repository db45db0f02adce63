import LogicDecode.Proofs.Clearing
import LogicDecode.Proofs.Opening
import LogicDecode.Proofs.Recasting
import LogicDecode.Proofs.Scanning

/-!
# Runs begin afresh

Whatever has happened to a stack, a run that begins on it goes as on a stack that was created just now, given
the same notifications: its results, what it puts on record and what it tells subscribers are the same
(`Stack.restart_afresh`).

The invariant is that the two stacks are `Twins`: they differ in who listens, and until the run has opened a
session also in what an earlier one left in the engine. All else was set when the run began (`launch_eq`), and
each cue keeps it so (`Twins.heed`).
-/

namespace LogicDecode

/-- Something that can happen to a stack with a run, or be asked of it. -/
inductive Cue where
  | append (units : Bytes)
  | announce
  | complete
  | capture (c : CaptureState)
  | interrupt
  | clear
  /-- The engine's lock is free for the worker. -/
  | enter
  | step
  /-- The engine lets go of the worker. -/
  | resume
  | join

namespace Stack
variable {δ ε : Type} {φ : δ → ε}

section Launch

/-- A run that begins replaces all that an earlier one may have left but the engine. -/
theorem launch_eq {s : Stack ε} (hcomplete : s.stages.all Stage.isComplete = true) (number : Nat) (first : Segment) :
    let table := RowTable.ofProfiles (s.stages.map (·.profile))
    let rate := if first.rate == 0.0 then 1.0 else first.rate
    s.launch (some (number, first)) = (⟨s.stages, s.engine, s.config, s.capture, s.lock,
      ⟨table, table.rows.map fun r => (r.key, Track.empty), 0, 0, max s.config.notifyPeriod 1, none, []⟩,
      ⟨0, false, some number, first.startTime, rate⟩, false, s.broadcast,
      some ⟨s.stages, number, rate, s.config, .queued⟩⟩, []) := by
  unfold launch
  dsimp only [Stack.clear]
  rw [hcomplete, if_neg (by decide)]
  rfl

@[simp] theorem engine_launch (s : Stack ε) (found : Option (Nat × Segment)) :
    (s.launch found).1.engine = s.engine := by
  cases hcomplete : s.stages.all Stage.isComplete with
  | false =>
    obtain ⟨o, b, h⟩ := @exists_launch_of_idle _ s found (.inl hcomplete)
    rw [h]
  | true =>
    cases found with
    | none =>
      obtain ⟨o, b, h⟩ := exists_launch_of_idle s (.inr rfl)
      rw [h]
    | some p => rw [launch_eq hcomplete]

end Launch

variable [Engine δ] [Engine ε]

/-- Begins a run when the one before it has been cancelled. -/
def restart (s : Stack ε) (seg : Segment) (found : Option (Nat × Segment)) : Stack ε × List LogEntry :=
  let (s₁, log₁) := s.cancel seg
  let (s₂, log₂) := s₁.launch found
  (s₂, log₁ ++ log₂)

/-- What comes of a cue, and what it puts on record. A cue that nobody waits for passes. -/
def heed (p : Stack ε × Segment) : Cue → (Stack ε × Segment) × List LogEntry
  | .append units =>
    match p.2.append units with
    | .ok seg => ((p.1, seg), [])
    | .error _ => (p, [])
  | .announce => ((p.1.announce p.2.size, p.2), [])
  | .complete => ((p.1.complete, p.2), [])
  | .capture c => (({ p.1 with capture := c }, p.2), [])
  | .interrupt => (({ p.1 with interrupted := true }, p.2), [])
  | .clear => ((p.1.clear, p.2), [])
  | .enter =>
    match p.1.worker with
    | some w => match w.phase with
      | .queued => (((p.1.enter w p.2).1, p.2), (p.1.enter w p.2).2)
      | _ => (p, [])
    | none => (p, [])
  | .step =>
    match p.1.step? p.2 with
    | some q => ((q.1, p.2), q.2)
    | none => (p, [])
  | .resume => ((p.1.resume.1, p.2), p.1.resume.2)
  | .join => if p.1.isRunning then (p, []) else ((p.1.join.1, p.2), p.1.join.2)

/-- What comes of some cues, one after the other. -/
def play (p : Stack ε × Segment) : List Cue → (Stack ε × Segment) × List LogEntry
  | [] => (p, [])
  | c :: cues => ((play (heed p c).1 cues).1, (heed p c).2 ++ (play (heed p c).1 cues).2)

/-- All that can happen to a stack with a run comes of a cue, but for what its subscribers do. -/
theorem exists_cue {p q : Stack ε × Segment} (h : Proceeds p q) :
    (∃ c, (heed p c).1 = q) ∨ ∃ b, q = ({ p.1 with broadcast := b }, p.2) := by
  cases h with
  | @append t seg seg' units happend => exact .inl ⟨.append units, by simp only [heed, happend]⟩
  | announce => exact .inl ⟨.announce, rfl⟩
  | complete => exact .inl ⟨.complete, rfl⟩
  | capture c => exact .inl ⟨.capture c, rfl⟩
  | interrupt => exact .inl ⟨.interrupt, rfl⟩
  | subscribers b => exact .inr ⟨b, rfl⟩
  | enter hw hp => exact .inl ⟨.enter, by simp only [heed, hw, hp]⟩
  | step hstep => exact .inl ⟨.step, by simp only [heed, hstep]⟩
  | resume => exact .inl ⟨.resume, rfl⟩
  | join hw ho => exact .inl ⟨.join, by simp [heed, isRunning, hw, ho]⟩

/-- Who listens makes no difference to a cue, and neither does an engine that answers alike. -/
theorem heed_recast (hφ : Engine.Hom φ) (t : Stack δ) (seg : Segment) (c : Cue) :
    ∃ t' seg' log es, heed (t, seg) c = ((t', seg'), log) ∧ t'.broadcast = t.broadcast.sendAll es ∧
      ∀ b, heed (t.recast φ b, seg) c = ((t'.recast φ (b.sendAll es), seg'), log) := by
  cases c with
  | append units =>
    unfold heed
    dsimp only
    cases seg.append units with
    | ok seg' => exact ⟨t, seg', [], [], rfl, rfl, fun _ => rfl⟩
    | error e => exact ⟨t, seg, [], [], rfl, rfl, fun _ => rfl⟩
  | announce =>
    obtain ⟨i, h⟩ := exists_announce t seg.size
    exact ⟨_, _, _, [], rfl, by rw [h]; rfl, fun b => by simp only [heed, announce_recast]; rfl⟩
  | complete =>
    obtain ⟨i, h⟩ := exists_complete t
    exact ⟨_, _, _, [], rfl, by rw [h]; rfl, fun b => by simp only [heed, complete_recast]; rfl⟩
  | capture | interrupt | clear => exact ⟨_, _, _, [], rfl, rfl, fun _ => rfl⟩
  | enter =>
    have hworker : ∀ b, (t.recast φ b).worker = t.worker := fun _ => rfl
    unfold heed
    simp only [hworker]
    cases t.worker with
    | none => exact ⟨t, seg, [], [], rfl, rfl, fun _ => rfl⟩
    | some w =>
      dsimp only
      cases w.phase with
      | queued =>
        obtain ⟨es, hsent, henter⟩ := recasts_enter t w hφ seg
        exact ⟨_, _, _, es, rfl, hsent, fun b => by simp only [henter]⟩
      | feeding | held | waiting | closing | ended | faulted => exact ⟨t, seg, [], [], rfl, rfl, fun _ => rfl⟩
  | step =>
    obtain ⟨es, hsent, hstep⟩ := exists_step?_recast t hφ seg
    unfold heed
    simp only [hstep]
    cases hs : t.step? seg with
    | none => exact ⟨t, seg, [], [], rfl, rfl, fun _ => rfl⟩
    | some p => exact ⟨_, _, _, es, rfl, hsent p hs, fun _ => rfl⟩
  | resume =>
    obtain ⟨es, hsent, hresume⟩ := recasts_resume t hφ
    exact ⟨_, _, _, es, rfl, hsent, fun b => by simp only [heed, hresume]⟩
  | join =>
    obtain ⟨es, hsent, hjoin⟩ := @recasts_join _ _ φ t
    have hrunning : ∀ b, (t.recast φ b).isRunning = t.isRunning := fun _ => rfl
    unfold heed
    simp only [hrunning, hjoin]
    cases t.isRunning with
    | true => exact ⟨t, seg, [], [], rfl, rfl, fun _ => rfl⟩
    | false => exact ⟨_, _, _, es, rfl, hsent, fun _ => rfl⟩

/-- Of its engine a worker that enters sees no more than the session it is given. -/
theorem enter_congr (t : Stack ε) {e : ε} (h : Engine.openSession e = Engine.openSession t.engine) (w : Worker)
    (seg : Segment) : { t with engine := e }.enter w seg = t.enter w seg := by
  unfold enter
  simp only [h]

/-- Stacks with the same run: they differ in who listens, and until the worker has opened a session, in what an
earlier one left in the engine. -/
inductive Twins (t : Stack ε) : Stack ε → Prop
  | alike (b : Broadcast) : Twins t (t.recast (fun e => e) b)
  | queued {w : Worker} (hw : t.worker = some w) (hp : w.phase = .queued) {e : ε}
      (he : Engine.openSession e = Engine.openSession t.engine) (b : Broadcast) : Twins t (t.recast (fun _ => e) b)

namespace Twins
variable {t u : Stack ε}

theorem heed (h : Twins t u) (seg : Segment) (c : Cue) : ∃ t' u' seg' log es,
    heed (t, seg) c = ((t', seg'), log) ∧ Stack.heed (u, seg) c = ((u', seg'), log) ∧
      t'.broadcast = t.broadcast.sendAll es ∧ u'.broadcast = u.broadcast.sendAll es ∧ Twins t' u' := by
  cases h with
  | alike b =>
    obtain ⟨t', seg', log, es, hheed, hsent, hrecast⟩ := heed_recast .id t seg c
    exact ⟨t', _, seg', log, es, hheed, hrecast b, hsent, rfl, .alike _⟩
  | @queued w hw hp e he b =>
    have hworker : (t.recast (fun _ => e) b).worker = some w := hw
    cases c with
    | append units =>
      unfold Stack.heed
      dsimp only
      cases seg.append units with
      | ok seg' => exact ⟨t, _, seg', [], [], rfl, rfl, rfl, rfl, .queued hw hp he b⟩
      | error c => exact ⟨t, _, seg, [], [], rfl, rfl, rfl, rfl, .queued hw hp he b⟩
    | announce =>
      have hannounce : Stack.heed (t.recast (fun _ => e) b, seg) .announce =
          (((t.announce seg.size).recast (fun _ => e) b, seg), []) := by
        simp only [Stack.heed, announce_recast]
      obtain ⟨i, hi⟩ := exists_announce t seg.size
      exact ⟨_, _, _, _, [], rfl, hannounce, by rw [hi]; rfl, rfl,
        .queued (by rw [hi]; exact hw) hp (by rw [hi]; exact he) b⟩
    | complete =>
      have hcomplete : Stack.heed (t.recast (fun _ => e) b, seg) .complete =
          ((t.complete.recast (fun _ => e) b, seg), []) := by
        simp only [Stack.heed, complete_recast]
      obtain ⟨i, hi⟩ := exists_complete t
      exact ⟨_, _, _, _, [], rfl, hcomplete, by rw [hi]; rfl, rfl,
        .queued (by rw [hi]; exact hw) hp (by rw [hi]; exact he) b⟩
    | capture c => exact ⟨_, _, _, _, [], rfl, rfl, rfl, rfl, .queued (t := { t with capture := c }) hw hp he b⟩
    | interrupt => exact ⟨_, _, _, _, [], rfl, rfl, rfl, rfl, .queued (t := { t with interrupted := true }) hw hp he b⟩
    | clear => exact ⟨_, _, _, _, [], rfl, rfl, rfl, rfl, .queued (t := t.clear) hw hp he b⟩
    | enter =>
      obtain ⟨es, hsent, henter⟩ := recasts_enter t w .id seg
      have hsame : (t.recast (fun _ => e) b).enter w seg = (t.recast (fun e => e) b).enter w seg :=
        enter_congr (t.recast (fun e => e) b) he w seg
      refine ⟨_, _, seg, (t.enter w seg).2, es, ?_, ?_, hsent, ?_, .alike (b.sendAll es)⟩
      · simp only [Stack.heed, hw, hp]
      · simp only [Stack.heed, hworker, hp, hsame, henter]
      · rfl
    | step =>
      exact ⟨t, _, seg, [], [], by simp [Stack.heed, step?, hw, hp], by simp [Stack.heed, step?, hworker, hp], rfl, rfl,
        .queued hw hp he b⟩
    | resume =>
      exact ⟨t, _, seg, [], [], by simp [Stack.heed, resume, hw, hp], by simp [Stack.heed, resume, hworker, hp], rfl,
        rfl, .queued hw hp he b⟩
    | join =>
      have hrunning : t.isRunning = true := by simp [isRunning, hw, hp, Phase.isOver]
      exact ⟨t, _, seg, [], [], by simp [Stack.heed, hrunning],
        by simp [Stack.heed, isRunning, hworker, hp, Phase.isOver],
        rfl, rfl, .queued hw hp he b⟩

theorem play (h : Twins t u) (seg : Segment) (cues : List Cue) : ∃ t' u' seg' log es,
    play (t, seg) cues = ((t', seg'), log) ∧ Stack.play (u, seg) cues = ((u', seg'), log) ∧
      t'.broadcast = t.broadcast.sendAll es ∧ u'.broadcast = u.broadcast.sendAll es ∧ Twins t' u' := by
  induction cues generalizing t u seg with
  | nil => exact ⟨t, u, seg, [], [], rfl, rfl, rfl, rfl, h⟩
  | cons c cues ih =>
    obtain ⟨t₁, u₁, seg₁, log₁, es₁, ht₁, hu₁, hsent₁, hsent₁', h₁⟩ := h.heed seg c
    obtain ⟨t', u', seg', log', es', ht', hu', hsent', hsent'', h'⟩ := ih h₁ seg₁
    refine ⟨t', u', seg', log₁ ++ log', es₁ ++ es', ?_, ?_, ?_, ?_, h'⟩
    · simp only [Stack.play, ht₁, ht']
    · simp only [Stack.play, hu₁, hu']
    · rw [hsent', hsent₁, Broadcast.sendAll_append]
    · rw [hsent'', hsent₁', Broadcast.sendAll_append]

end Twins

/-- What can happen to a stack in all its life, and to the segment of its last run. -/
inductive Befalls : Stack ε × Segment → Stack ε × Segment → Prop
  | proceeds {p q : Stack ε × Segment} (h : Proceeds p q) : Befalls p q
  | clear {t : Stack ε} {seg : Segment} : Befalls (t, seg) (t.clear, seg)
  /-- Another run begins, or does not for want of channels or of a segment. -/
  | restart {t : Stack ε} {seg : Segment} (found : Option (Nat × Segment)) (first : Segment) :
      Befalls (t, seg) ((t.restart seg found).1, first)
  | edit {t : Stack ε} {seg : Segment} (hr : t.isRunning = false) (stages : List Stage) (config : Config) :
      Befalls (t, seg) ({ t with stages := stages, config := config }, seg)

section History
variable {t t' : Stack ε} {seg seg' : Segment}

theorem reaches_of_proceeds (h : Proceeds (t, seg) (t', seg')) : Engine.Reaches t.engine t'.engine := by
  rcases proceeds_cases h with ⟨-, w, -, hworks, -⟩ | hapart
  · exact reaches_of_works hworks
  · have hengine : t'.engine = t.engine := hapart.engine
    rw [hengine]
    exact .refl

theorem reaches_of_run {p q : Stack ε × Segment} (h : Relation.ReflTransGen Proceeds p q) :
    Engine.Reaches p.1.engine q.1.engine := by
  induction h with
  | refl => exact .refl
  | tail _ hstep ih => exact ih.trans (reaches_of_proceeds hstep)

omit [Engine ε] in
@[simp] theorem engine_join (t : Stack ε) : t.join.1.engine = t.engine := by
  unfold join
  split <;> rfl

theorem reaches_resume (t : Stack ε) : Engine.Reaches t.engine t.resume.1.engine := by
  unfold resume
  split
  · split
    · exact reaches_of_absorbs (absorbs ..)
    · exact .refl
  · exact .refl

theorem reaches_cancel (t : Stack ε) (seg : Segment) : Engine.Reaches t.engine (t.cancel seg).1.engine := by
  unfold cancel
  split
  · exact .refl
  · have hresume := reaches_resume { t with interrupted := true }
    have hsettle := reaches_of_run (proceeds_settle { t with interrupted := true }.resume.1 seg)
    simp only [engine_join]
    exact hresume.trans hsettle

theorem config_of_absorbs {w : Worker} {stop count : Nat} {sub : Submission} (h : Absorbs t w stop count sub t') :
    t'.config = t.config ∧ t'.capture = t.capture := by
  cases h <;> exact ⟨rfl, rfl⟩

theorem config_of_works {w : Worker} (h : Works seg t w t') : t'.config = t.config ∧ t'.capture = t.capture := by
  have hconclude : ∀ (u : Stack ε) (e : Option RunError),
      (u.conclude w e).1.config = u.config ∧ (u.conclude w e).1.capture = u.capture := by
    intro u e
    obtain ⟨b, hb⟩ := conclude_eq u w e
    rw [hb]
    exact ⟨rfl, rfl⟩
  cases h with
  | turnedAway | closed => exact hconclude _ _
  | unbuilt | opened | stopped | caughtUp | overflow | held | roused | done => exact ⟨rfl, rfl⟩
  | @sent _ _ _ e _ _ _ _ _ _ _ ha => exact config_of_absorbs (t := { t with engine := e }) ha
  | released _ ha => exact config_of_absorbs ha

theorem config_cancel (t : Stack ε) (seg : Segment) :
    (t.cancel seg).1.config = t.config ∧ (t.cancel seg).1.capture = t.capture := by
  have hresume : ∀ u : Stack ε, u.resume.1.config = u.config ∧ u.resume.1.capture = u.capture := by
    intro u
    unfold resume
    split
    · split
      · exact config_of_absorbs (absorbs ..)
      · exact ⟨rfl, rfl⟩
    · exact ⟨rfl, rfl⟩
  have hsettle : ∀ u : Stack ε, (u.settle seg).1.config = u.config ∧ (u.settle seg).1.capture = u.capture := by
    intro u
    have hsteps := steps_settle u seg
    generalize (u.settle seg).1 = u' at hsteps ⊢
    induction hsteps with
    | refl => exact ⟨rfl, rfl⟩
    | tail _ hstep ih =>
      obtain ⟨log, hstep⟩ := hstep
      obtain ⟨w, -, hworks⟩ := works_of_step hstep
      exact ⟨(config_of_works hworks).1.trans ih.1, (config_of_works hworks).2.trans ih.2⟩
  have hjoin : ∀ u : Stack ε, u.join.1.config = u.config ∧ u.join.1.capture = u.capture := by
    intro u
    unfold join
    split <;> exact ⟨rfl, rfl⟩
  unfold cancel
  split
  · exact ⟨rfl, rfl⟩
  · exact ⟨((hjoin _).1.trans (hsettle _).1).trans (hresume _).1, ((hjoin _).2.trans (hsettle _).2).trans (hresume _).2⟩

theorem reaches_of_befalls (h : Befalls (t, seg) (t', seg')) : Engine.Reaches t.engine t'.engine := by
  cases h with
  | proceeds h => exact reaches_of_proceeds h
  | clear | edit => exact .refl
  | restart found =>
    have hcancel := reaches_cancel t seg
    unfold restart
    simp only [engine_launch]
    exact hcancel

theorem reaches_of_history {p q : Stack ε × Segment} (h : Relation.ReflTransGen Befalls p q) :
    Engine.Reaches p.1.engine q.1.engine := by
  induction h with
  | refl => exact .refl
  | tail _ hstep ih => exact ih.trans (reaches_of_befalls hstep)

end History

/-- Runs that begin on stacks of one chain are twins if the engines open sessions alike. -/
theorem twins_launch {s s' : Stack ε} (hcomplete : s.stages.all Stage.isComplete = true)
    (hstages : s'.stages = s.stages) (hconfig : s'.config = s.config) (hcapture : s'.capture = s.capture)
    (hlock : s'.lock = s.lock) (hopen : Engine.openSession s'.engine = Engine.openSession s.engine)
    (number : Nat) (first : Segment) :
    Twins (s.launch (some (number, first))).1 (s'.launch (some (number, first))).1 := by
  have hcomplete' : s'.stages.all Stage.isComplete = true := hstages ▸ hcomplete
  have hrecast : (s'.launch (some (number, first))).1 =
      (s.launch (some (number, first))).1.recast (fun _ => s'.engine) s'.broadcast := by
    rw [launch_eq hcomplete, launch_eq hcomplete', hstages, hconfig, hcapture, hlock]
    rfl
  have hworker : (s.launch (some (number, first))).1.worker =
      some ⟨s.stages, number, if first.rate == 0.0 then 1.0 else first.rate, s.config, .queued⟩ := by
    rw [launch_eq hcomplete]
  rw [hrecast]
  exact .queued hworker rfl (by rw [engine_launch]; exact hopen) _

section Fresh
variable {σ : Type} [Protocol σ] {registry : Registry σ}

/-- A run that begins on a stack goes as on a stack that was created just now, whatever has happened to the former
one before: with the same cues the results are the same, and so are what is put on record and the events that
subscribers are sent. -/
theorem restart_afresh {stages₀ : List Stage} {config₀ : Config} {capture₀ : CaptureState} {lock : Lock}
    {seg₀ seg : Segment} {s : Stack (Host σ)}
    (h : Relation.ReflTransGen Befalls (create stages₀ (.ofRegistry registry) config₀ capture₀ lock, seg₀) (s, seg))
    (hcomplete : s.stages.all Stage.isComplete = true) (number : Nat) (first : Segment) (b : Broadcast)
    (cues : List Cue) :
    let fresh := { create s.stages (Host.ofRegistry registry) s.config s.capture s.lock with broadcast := b }
    ∃ t u seg' log es,
      play ((s.restart seg (some (number, first))).1, first) cues = ((t, seg'), log) ∧
      play ((fresh.restart first (some (number, first))).1, first) cues = ((u, seg'), log) ∧
      t.stages = u.stages ∧ t.output = u.output ∧ t.input = u.input ∧ t.interrupted = u.interrupted ∧
      t.worker = u.worker ∧ t.visibleRows = u.visibleRows ∧
      t.broadcast = (s.cancel seg).1.broadcast.sendAll es ∧ u.broadcast = b.sendAll es := by
  intro fresh
  obtain ⟨hkeeps, -⟩ := keeps_cancel s seg
  obtain ⟨hconfig, hcapture⟩ := config_cancel s seg
  have hregistry : (s.cancel seg).1.engine.registry = registry :=
    (Host.registry_of_reaches (reaches_cancel s seg)).trans (Host.registry_of_reaches (reaches_of_history h))
  -- a session that an earlier run left is forgotten when another one is opened
  have hopen : Engine.openSession fresh.engine = Engine.openSession (s.cancel seg).1.engine := by
    simp only [Engine.openSession, hregistry]
    rfl
  have hstages : fresh.stages = (s.cancel seg).1.stages := hkeeps.stages.symm
  have htwins := twins_launch (hkeeps.stages ▸ hcomplete) hstages hconfig.symm hcapture.symm hkeeps.lock.symm hopen
    number first
  obtain ⟨t, u, seg', log, es, ht, hu, hsent, hsent', hsame⟩ := htwins.play first cues
  refine ⟨t, u, seg', log, es, ht, hu, ?_⟩
  rw [launch_eq (hkeeps.stages ▸ hcomplete)] at hsent
  rw [launch_eq (s := fresh) hcomplete] at hsent'
  cases hsame <;> exact ⟨rfl, rfl, rfl, rfl, rfl, rfl, hsent, hsent'⟩

/-- The run before has been cleared while it went on, and has broken down. A stray frame end came before it, and
another one comes behind it. -/
theorem restart_afresh_broken_down :
    let stage : Stage := ⟨Parallel.profile, [("clk", ⟨"clk", 0, none⟩), ("d0", ⟨"d0", 1, none⟩)], [], true⟩
    let s₀ : Stack (Host Builtin) :=
      create [stage] (.ofRegistry Builtin.registry) (Config.standard.withChunkBytes 1) .running .shared
    let first : Segment := ⟨1, 0.0, 0.0, #[0, 1, 0, 3, 0, 1], by decide⟩
    let w : Worker := ⟨[stage], 0, if first.rate == 0.0 then 1.0 else first.rate, s₀.config, .queued⟩
    let s := (((s₀.complete.restart first (some (0, first))).1.enter w first).1.clear.settle first).1.complete
    let cues : List Cue := .enter :: List.replicate 7 .step ++ .complete :: List.replicate 2 .step
    Relation.ReflTransGen Befalls (s₀, first) (s, first) ∧ s.stages.all Stage.isComplete = true ∧
      (s.worker.map fun w => match w.phase with | .faulted => true | _ => false) = some true ∧ ∃ t seg' log es,
        play ((s.restart first (some (0, first))).1, first) cues = ((t, seg'), log) ∧
        (t.worker.map fun w => match w.phase with | .ended => true | _ => false) = some true ∧
        t.output.stored = 2 ∧ t.output.decoded = 6 ∧ t.output.error.isNone = true ∧
        t.broadcast = (s.cancel first).1.broadcast.sendAll es := by
  intro stage s₀ first w s cues
  have hworker : (s₀.complete.restart first (some (0, first))).1.worker = some w := rfl
  have hhistory : Relation.ReflTransGen Befalls (s₀, first) (s, first) := by
    have hsettle := (proceeds_settle ((s₀.complete.restart first (some (0, first))).1.enter w first).1.clear first).lift
      (fun p => p) fun _ _ h => Befalls.proceeds h
    exact .head (.proceeds .complete) (.head (.restart (some (0, first)) first)
      (.head (.proceeds (.enter hworker rfl)) (.head .clear (hsettle.tail (.proceeds .complete)))))
  have hbroken : (s.worker.map fun w => match w.phase with | .faulted => true | _ => false) = some true := by
    decide +kernel
  have hcomplete : s.stages.all Stage.isComplete = true := by decide +kernel
  let q := play (({ create s.stages (Host.ofRegistry Builtin.registry) s.config s.capture s.lock with
    broadcast := .empty }.restart first (some (0, first))).1, first) cues
  have hended : (q.1.1.worker.map fun w => match w.phase with | .ended => true | _ => false) = some true := by
    decide +kernel
  have hresults : q.1.1.output.stored = 2 ∧ q.1.1.output.decoded = 6 ∧ q.1.1.output.error.isNone = true := by
    decide +kernel
  clear_value s
  obtain ⟨t, u, seg', log, es, ht, hu, -, houtput, -, -, hw, -, hsent, -⟩ :=
    restart_afresh hhistory hcomplete 0 first .empty cues
  have hq : q.1.1 = u := congrArg (·.1.1) hu
  rw [hq, ← hw] at hended
  rw [hq, ← houtput] at hresults
  exact ⟨hhistory, hcomplete, hbroken, t, seg', log, es, ht, hended, hresults.1, hresults.2.1, hresults.2.2, hsent⟩

end Fresh

end Stack
end LogicDecode
