import LogicDecode.Proofs.Clearing
import LogicDecode.Proofs.Opening

/-!
# Runs and their sessions

Whatever happens to a stack, the session of its run has been handed all that the worker has fed, and has
reported all that was taken in (`Tends.course`). So what the worker hands over next is the chunk that its
session expects (`Tends.handed`). On a `Host` that session is there, it is started, and it knows its next
sample (`Host.session_of_serves`).
-/

namespace LogicDecode

namespace Stack
variable {ε : Type} [Engine ε] {e₀ : ε} {stages : List Stage} {t t' : Stack ε} {seg seg' : Segment} {ms : List Mark}
  {ds : List Deed}

/-- The worker of a stack, if it has one, feeds a session of the stack's chain, which has reported the marks
`ms`. -/
structure Tends (e₀ : ε) (stages : List Stage) (t : Stack ε) (seg : Segment) (ms : List Mark) : Prop where
  reaches : Engine.Reaches e₀ t.engine
  counts : Counts t seg
  serves : ∀ w, t.worker = some w → w.stages = stages ∧ t.ServesAt e₀ stages ms w.phase

namespace Tends

theorem launch {s : Stack ε} (hcomplete : s.stages.all Stage.isComplete = true) (number : Nat) (first : Segment) :
    Tends s.engine s.stages (s.launch (some (number, first))).1 first [] := by
  have hcounts := Counts.launch hcomplete number first
  obtain ⟨i, o, rate, heq, -⟩ := exists_launch s hcomplete number first
  rw [heq] at hcounts ⊢
  refine ⟨.refl, hcounts, fun w hw => ?_⟩
  cases hw
  exact ⟨rfl, rfl⟩

theorem turn (h : Tends e₀ stages t seg ms) (hturn : Turn (t, seg) ds (t', seg')) :
    Tends e₀ stages t' seg' (ms ++ takenOf ds) := by
  have hcounts := (h.counts.proceeds hturn.proceeds).1
  rcases turn_cases hturn with ⟨rfl, rfl, w, hw, hworks⟩ | ⟨hapart, hvisit⟩
  · obtain ⟨hchain, hserves⟩ := h.serves w hw
    refine ⟨h.reaches.trans (reaches_of_works hworks), hcounts, fun w' hw' => ?_⟩
    obtain ⟨p, hp⟩ := (keeps_of_works hworks).2
    have hnext := servesAt_of_works hserves hchain h.counts h.reaches hw hworks hw'
    cases hp.symm.trans hw'
    exact ⟨hchain, hnext⟩
  · have hengine : t'.engine = t.engine := hapart.engine
    rw [(visits_silent hvisit).2.2, List.append_nil]
    refine ⟨hengine ▸ h.reaches, hcounts, fun w hw => ?_⟩
    obtain ⟨hchain, hserves⟩ := h.serves w (hapart.stays hw)
    exact ⟨hchain, hserves.congr hengine⟩

theorem course {p q : Stack ε × Segment} (h : Tends e₀ stages p.1 p.2 ms) (hcourse : Course p ds q) :
    Tends e₀ stages q.1 q.2 (ms ++ takenOf ds) := by
  induction hcourse with
  | refl => simpa using h
  | tail _ hturn ih =>
    rw [takenOf_append, ← List.append_assoc]
    exact ih.turn hturn

/-- What the worker hands over begins where its session has stopped and holds the bytes of its range. -/
theorem handed (h : Tends e₀ stages t seg ms) {q : Stack ε × Segment} (hturn : Turn (t, seg) ds q) {x : Sending}
    (hx : .sent x ∈ ds) : Engine.Serves e₀ stages t.engine x.start ms ∧ x.start < x.stop ∧ x.unitSize = seg.unitSize ∧
      x.data.size = (x.stop - x.start) * x.unitSize ∧
      ∃ e, Engine.send t.engine x.start x.stop x.data x.unitSize = (e, x.answer) := by
  obtain ⟨w, fed, count, hw, hp, -, hlt, -, rfl⟩ := exists_of_sent_turn hturn hx
  obtain ⟨-, hserves⟩ := h.serves w hw
  have hphase := h.counts.phase w hw
  rw [hp] at hserves hphase
  obtain ⟨-, -, hcount⟩ := hphase
  have hpos : 0 < w.config.chunkSamples seg.unitSize := Nat.lt_of_lt_of_le Nat.zero_lt_one (Nat.le_max_right ..)
  have hstop : fed < min (fed + w.config.chunkSamples seg.unitSize) count := Nat.lt_min.2 ⟨by omega, hlt⟩
  have hsize : min (fed + w.config.chunkSamples seg.unitSize) count ≤ seg.size :=
    Nat.le_trans (Nat.min_le_right ..) (Nat.le_trans hcount h.counts.announced)
  exact ⟨hserves, hstop, rfl, Segment.size_samples hsize (Nat.le_of_lt hstop), _, rfl⟩

end Tends
end Stack

namespace Session
variable {σ : Type} {s s' s'' : Session σ} {stages stages' : List Stage}

/-- A session is like another one, but it has instances for some stages as well. -/
structure Builds (stages : List Stage) (s s' : Session σ) : Prop where
  registry : s'.registry = s.registry
  next : s'.next = s.next
  signed : ∀ y ∈ s'.instances, (∃ x ∈ s.instances, x.decoder = y.decoder) ∨
    ∃ stage ∈ stages, ∃ r, s.registry.get? stage.profile.id = some r ∧ r.profile.id = y.decoder

namespace Builds

theorem refl (s : Session σ) : Builds [] s s := ⟨rfl, rfl, fun y hy => .inl ⟨y, hy, rfl⟩⟩

theorem trans (h : Builds stages s s') (h' : Builds stages' s' s'') : Builds (stages ++ stages') s s'' := by
  refine ⟨h'.registry.trans h.registry, h'.next.trans h.next, fun y hy => ?_⟩
  rcases h'.signed y hy with ⟨x, hx, hxy⟩ | ⟨stage, hstage, hr⟩
  · rw [← hxy]
    rcases h.signed x hx with hold | ⟨stage, hstage, hr⟩
    · exact .inl hold
    · exact .inr ⟨stage, List.mem_append_left _ hstage, hr⟩
  · rw [h.registry] at hr
    exact .inr ⟨stage, List.mem_append_right _ hstage, hr⟩

theorem create {stage : Stage} {n : Nat} (h : s.create stage.setup = .ok (s', n)) : Builds [stage] s s' := by
  obtain ⟨r, state, hr, -, -, rfl⟩ := create_eq_ok h
  refine ⟨rfl, rfl, fun y hy => ?_⟩
  rcases List.mem_append.1 hy with hy | hy
  · exact .inl ⟨y, hy, rfl⟩
  · rw [List.mem_singleton.1 hy]
    exact .inr ⟨stage, List.mem_singleton_self _, r, hr, rfl⟩

theorem stack {l u : Nat} (h : s.stack l u = .ok s') : Builds [] s s' := by
  obtain ⟨x, -, hx, -, rfl⟩ := stack_eq_ok h
  refine ⟨rfl, rfl, fun y hy => .inl ?_⟩
  rcases List.mem_or_eq_of_mem_set hy with hy | rfl
  · exact ⟨y, hy, rfl⟩
  · exact ⟨x, List.mem_of_getElem? hx, rfl⟩

end Builds

/-- A session expects what comes behind the last samples that it has accepted. -/
theorem fields_send [Protocol σ] (s : Session σ) (start stop : Nat) (data : Bytes) (unitSize : Nat) :
    (s.send start stop data unitSize).session.started = s.started ∧
      (s.send start stop data unitSize).session.next =
        match (s.send start stop data unitSize).outcome with
        | .ok _ => some stop
        | .error _ => s.next := by
  unfold send
  split
  · exact ⟨rfl, rfl⟩
  · dsimp only
    split
    · exact ⟨rfl, rfl⟩
    · exact ⟨rfl, rfl⟩

end Session

namespace Host
variable {σ : Type} [Protocol σ] {stages : List Stage}

theorem builds_of_build {h h' : Host σ} {s : Session σ} {lower : Option Nat} (hs : h.session = some s)
    (hbuild : Stack.build h lower stages = (h', .ok ())) : ∃ s', h'.session = some s' ∧ s.Builds stages s' := by
  induction stages generalizing h s lower with
  | nil =>
    cases hbuild
    exact ⟨s, hs, .refl s⟩
  | cons stage rest ih =>
    rcases hcreate : s.create stage.setup with e | ⟨s₁, n⟩
    · simp only [Stack.build, Engine.create, create, hs, hcreate] at hbuild
      cases e <;> cases hbuild
    simp only [Stack.build, Engine.create, create, hs, hcreate] at hbuild
    have hfirst := Session.Builds.create hcreate
    cases lower with
    | none =>
      obtain ⟨s', hs', hrest⟩ := ih rfl hbuild
      exact ⟨s', hs', hfirst.trans hrest⟩
    | some l =>
      rcases hstack : s₁.stack l n with e | s₂
      · simp only [Engine.stack, update, hstack] at hbuild
        cases hbuild
      · simp only [Engine.stack, update, hstack] at hbuild
        obtain ⟨s', hs', hrest⟩ := ih rfl hbuild
        exact ⟨s', hs', hfirst.trans ((Session.Builds.stack hstack).trans hrest)⟩

/-- What a run starts is what it has built, in a session of its own. -/
theorem exists_started {e e₁ e₂ e₃ : Host σ} {hz : Nat} (ho : Engine.openSession e = (e₁, .ok ()))
    (hb : Stack.build e₁ none stages = (e₂, .ok ()))
    (hs : Engine.start (Engine.attach (Engine.setRate e₂ hz)) = (e₃, .ok ())) : ∃ b : Session σ,
      (Session.ofRegistry e.registry).Builds stages b ∧ e₂.session = some b ∧ e₃.session = some { b with
        rate := hz, reporting := true, started := true
        instances := b.instances.map fun x => { x with state := Protocol.start x.state hz } } := by
  obtain rfl : { e with session := some (.ofRegistry e.registry) } = e₁ := congrArg Prod.fst ho
  obtain ⟨b, hb', hbuilds⟩ := builds_of_build rfl hb
  refine ⟨b, hbuilds, hb', ?_⟩
  simp only [Engine.start, Engine.attach, Engine.setRate, update, hb', Option.map_some, Session.start] at hs
  split at hs
  · rename_i s' hs'
    split at hs'
    · cases hs'
    · cases hs'
      cases hs
      rfl
  · cases hs

theorem session_of_send {h h' : Host σ} {s : Session σ} {start stop unitSize : Nat} {data : Bytes} {sub : Submission}
    (hs : h.session = some s) (hsend : Engine.send h start stop data unitSize = (h', sub)) :
    h'.session = some (s.send start stop data unitSize).session ∧
      sub = ⟨false, (s.send start stop data unitSize).reported, (s.send start stop data unitSize).outcome⟩ := by
  simp only [Engine.send, Host.send, hs] at hsend
  cases hsend
  exact ⟨rfl, rfl⟩

theorem held_of_send {h h' : Host σ} {start stop unitSize : Nat} {data : Bytes} {sub : Submission}
    (hsend : Engine.send h start stop data unitSize = (h', sub)) : sub.held = false := by
  simp only [Engine.send, Host.send] at hsend
  split at hsend <;> (cases hsend; rfl)

/-- The session of a run has been started, and expects the sample behind those that it has taken. -/
theorem session_of_serves {e₀ e : Host σ} {n : Nat} {ms : List Mark} (h : Engine.Serves e₀ stages e n ms) :
    ∃ s, e.session = some s ∧ s.started = true ∧ (s.next = none ∨ s.next = some n) := by
  induction h with
  | started _ ho hb hs =>
    obtain ⟨b, hbuilds, -, hsession⟩ := exists_started ho hb hs
    exact ⟨_, hsession, rfl, .inl hbuilds.next⟩
  | @sent e e' n stop ms sub _ hsends hok ih =>
    obtain ⟨s, hs, hstarted, -⟩ := ih
    obtain ⟨data, unitSize, -, -, hsend⟩ := hsends.sent
    obtain ⟨hsession, rfl⟩ := session_of_send hs hsend
    obtain ⟨hstarted', hnext⟩ := s.fields_send n stop data unitSize
    rw [show (s.send n stop data unitSize).outcome = .ok () from hok] at hnext
    exact ⟨_, hsession, hstarted'.trans hstarted, .inr hnext⟩

end Host
end LogicDecode
