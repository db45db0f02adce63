import LogicDecode.Proofs.Courses
import LogicDecode.Proofs.Recasting

/-!
# Engines on tape

`Engine.Taped` is any engine with a tape of the calls that are made to it, each with what it answered. A run
does not see the tape: whatever happens to a stack also happens to the stack `taping` its engine
(`Stack.exists_taped_course`), so what is shown of tapes is shown of runs on any engine.
-/

namespace LogicDecode

namespace Engine

/-- A call of an engine and the answer to it. -/
inductive Exchange where
  | openSession (answer : Except EngineError Unit)
  | create (setup : Setup) (answer : Outcome EngineError Nat)
  | stack (lower upper : Nat) (answer : Except EngineError Unit)
  | setRate (hz : Nat)
  | attach
  | start (answer : Except EngineError Unit)
  | send (x : Sending)
  | closeSession

/-- What a run makes of the answer if it is a refusal. -/
def Exchange.error? : Exchange → Option RunError
  | .openSession (.error c) => some (.session c)
  | .create _ (.error (.refused c)) => some (.instantiation c)
  | .stack _ _ (.error c) => some (.instantiation c)
  | .start (.error c) => some (.session c)
  | .send x =>
    match x.answer.outcome with
    | .error (.refused c) => some (.submission c)
    | _ => none
  | _ => none

/-- The marks that were reported, in the order of the calls. -/
def reportedIn (calls : List Exchange) : List Mark :=
  calls.flatMap fun
    | .send x => x.answer.reported
    | _ => []

/-- Where the chunks end that were taken. -/
def acceptedIn (calls : List Exchange) : List Nat :=
  calls.filterMap fun
    | .send x =>
      match x.answer.outcome with
      | .ok () => some x.stop
      | .error _ => none
    | _ => none

section Records
variable {calls calls' : List Exchange}

@[simp] theorem reportedIn_append : reportedIn (calls ++ calls') = reportedIn calls ++ reportedIn calls' :=
  List.flatMap_append

@[simp] theorem acceptedIn_append : acceptedIn (calls ++ calls') = acceptedIn calls ++ acceptedIn calls' :=
  List.filterMap_append

theorem reportedIn_closeSession : reportedIn [.closeSession] = [] := rfl

variable {x : Sending}

theorem reportedIn_send : reportedIn [.send x] = x.answer.reported := List.append_nil _

theorem acceptedIn_ok (h : x.answer.outcome = .ok ()) : acceptedIn [.send x] = [x.stop] := by
  simp [acceptedIn, h]

theorem acceptedIn_error {f : Failure EngineError} (h : x.answer.outcome = .error f) : acceptedIn [.send x] = [] := by
  simp [acceptedIn, h]

end Records

/-- An engine with a tape of its calls. -/
structure Taped (ε : Type) where
  engine : ε
  calls : List Exchange

variable {ε : Type} [Engine ε]

instance : Engine (Taped ε) where
  openSession e :=
    let (e', answer) := Engine.openSession e.engine
    (⟨e', e.calls ++ [.openSession answer]⟩, answer)
  create e setup :=
    let (e', answer) := Engine.create e.engine setup
    (⟨e', e.calls ++ [.create setup answer]⟩, answer)
  stack e lower upper :=
    let (e', answer) := Engine.stack e.engine lower upper
    (⟨e', e.calls ++ [.stack lower upper answer]⟩, answer)
  setRate e hz := ⟨Engine.setRate e.engine hz, e.calls ++ [.setRate hz]⟩
  attach e := ⟨Engine.attach e.engine, e.calls ++ [.attach]⟩
  start e :=
    let (e', answer) := Engine.start e.engine
    (⟨e', e.calls ++ [.start answer]⟩, answer)
  send e start stop data unitSize :=
    let (e', answer) := Engine.send e.engine start stop data unitSize
    (⟨e', e.calls ++ [.send ⟨start, stop, data, unitSize, answer⟩]⟩, answer)
  closeSession e := ⟨Engine.closeSession e.engine, e.calls ++ [.closeSession]⟩

theorem Taped.calls_send (e : Taped ε) (start stop : Nat) (data : Bytes) (unitSize : Nat) :
    (Engine.send e start stop data unitSize).1.calls =
      e.calls ++ [.send ⟨start, stop, data, unitSize, (Engine.send e start stop data unitSize).2⟩] := rfl

/-- The tape has no part in what the engine does. -/
theorem Taped.hom : Engine.Hom (Taped.engine : Taped ε → ε) :=
  ⟨fun _ => rfl, fun _ _ => rfl, fun _ _ _ => rfl, fun _ _ => rfl, fun _ => rfl, fun _ => rfl, fun _ _ _ _ _ => rfl,
    fun _ => rfl⟩

end Engine

namespace Stack
variable {ε : Type}

/-- A stack whose engine has these calls on tape. -/
def taping (calls : List Engine.Exchange) (t : Stack ε) : Stack (Engine.Taped ε) :=
  t.recast (fun e => ⟨e, calls⟩) t.broadcast

variable [Engine ε] {t t' : Stack ε} {seg seg' : Segment} {ds : List Deed} {calls calls' : List Engine.Exchange}

omit [Engine ε] in
/-- Where a move of the stack that is taped leads to, with the tape left out. -/
theorem Recasts.exists_taping {p : Stack (Engine.Taped ε) × List LogEntry}
    {f : Broadcast → Stack ε × List LogEntry} (h : Recasts Engine.Taped.engine (t.taping calls) p f) :
    ∃ calls', p.1 = (f t.broadcast).1.taping calls' := by
  obtain ⟨es, hsent, hf⟩ := h
  refine ⟨p.1.engine.calls, ?_⟩
  have hsame : p.1.broadcast = t.broadcast.sendAll es := hsent
  rw [hf, ← hsame]
  rfl

theorem exists_taped_proceeds (h : Proceeds (t, seg) (t', seg')) (calls : List Engine.Exchange) :
    ∃ calls', Proceeds (t.taping calls, seg) (t'.taping calls', seg') := by
  cases h with
  | append happend => exact ⟨calls, .append happend⟩
  | announce =>
    have hannounce : (t.announce seg.size).taping calls = (t.taping calls).announce seg.size := by
      obtain ⟨i, hi⟩ := exists_announce t seg.size
      have hsubscribers : (t.announce seg.size).broadcast = t.broadcast := by rw [hi]
      rw [taping, hsubscribers, ← announce_recast]
      rfl
    exact ⟨calls, hannounce ▸ .announce⟩
  | complete =>
    have hcomplete : t.complete.taping calls = (t.taping calls).complete := by
      obtain ⟨i, hi⟩ := exists_complete t
      have hsubscribers : t.complete.broadcast = t.broadcast := by rw [hi]
      rw [taping, hsubscribers, ← complete_recast]
      rfl
    exact ⟨calls, hcomplete ▸ .complete⟩
  | capture c => exact ⟨calls, .capture c⟩
  | interrupt => exact ⟨calls, .interrupt⟩
  | subscribers b => exact ⟨calls, .subscribers b⟩
  | @enter _ _ w hw hp =>
    obtain ⟨calls', h'⟩ := (recasts_enter (t.taping calls) w Engine.Taped.hom seg).exists_taping
    have henter : ((t.taping calls).enter w seg).1 = (t.enter w seg).1.taping calls' := h'
    exact ⟨calls', henter ▸ .enter hw hp⟩
  | step hstep =>
    obtain ⟨es, hsent, hrecast⟩ := exists_step?_recast (t.taping calls) Engine.Taped.hom seg
    have hstep' : t.step? seg = ((t.taping calls).step? seg).map fun p =>
        (p.1.recast Engine.Taped.engine (t.broadcast.sendAll es), p.2) := hrecast t.broadcast
    rw [hstep] at hstep'
    obtain ⟨⟨u, log⟩, hu, heq⟩ := Option.map_eq_some_iff.1 hstep'.symm
    obtain ⟨rfl, rfl⟩ := Prod.mk.inj heq
    have hsame : u.broadcast = t.broadcast.sendAll es := hsent (u, log) hu
    refine ⟨u.engine.calls, ?_⟩
    rw [← hsame]
    exact .step hu
  | resume hw hp =>
    obtain ⟨calls', h'⟩ := (recasts_resume (t.taping calls) Engine.Taped.hom).exists_taping
    have hresume : (t.taping calls).resume.1 = t.resume.1.taping calls' := h'
    exact ⟨calls', hresume ▸ .resume hw hp⟩
  | @join _ _ w hw ho =>
    obtain ⟨calls', h'⟩ := (recasts_join (t.taping calls)).exists_taping
    have hjoin : (t.taping calls).join.1 = t.join.1.taping calls' := h'
    exact ⟨calls', hjoin ▸ .join hw ho⟩

theorem exists_taped_turn (h : Turn (t, seg) ds (t', seg')) (calls : List Engine.Exchange) :
    ∃ calls', Turn (t.taping calls, seg) ds (t'.taping calls', seg') := by
  cases h with
  | work h hw hworks =>
    obtain ⟨calls', h'⟩ := exists_taped_proceeds h calls
    rcases proceeds_cases h' with ⟨-, w', hw', hworks', -⟩ | hapart
    · exact ⟨calls', .work h' hw' hworks'⟩
    · have hstays : ∀ w, t'.worker = some w → t.worker = some w := fun _ => hapart.stays
      exact absurd hstays (not_stays_of_works hw hworks)
  | visit hvisit => exact ⟨calls, .visit hvisit⟩
  | apart h hapart hsame =>
    obtain ⟨calls', h'⟩ := exists_taped_proceeds h calls
    exact ⟨calls', .apart h' (apart_of_stays h' fun _ => hapart.stays) hsame⟩

theorem exists_taped_course (h : Course (t, seg) ds (t', seg')) (calls : List Engine.Exchange) :
    ∃ calls', Course (t.taping calls, seg) ds (t'.taping calls', seg') := by
  generalize hq : (t', seg') = q at h
  induction h generalizing t' seg' with
  | refl =>
    obtain ⟨rfl, rfl⟩ := Prod.mk.inj hq
    exact ⟨calls, .refl⟩
  | @tail q r _ _ _ hturn ih =>
    obtain ⟨u, seg₁⟩ := q
    subst hq
    obtain ⟨calls₁, h₁⟩ := ih rfl
    obtain ⟨calls', h'⟩ := exists_taped_turn hturn calls₁
    exact ⟨calls', h₁.tail h'⟩

end Stack
end LogicDecode
