import LogicDecode.Proofs.WorkerMoves

/-!
# Courses of runs

A `Course` is what happens to a stack, turn after turn, with a record of what the stack itself does not
show afterwards: the counts that its worker was sent off to, what the engine was handed and what it answered,
the marks taken in, and what subscribers read. A turn is what `Proceeds` lists with a record added to it
(`exists_turn`): what a move of the worker puts on record follows from the stacks before and after it (`Stack.deeds`),
subscribers put on record what they do, and all else nothing.
-/

namespace LogicDecode

/-- Samples as they are handed to an engine, and its answer. -/
structure Sending where
  start : Nat
  stop : Nat
  data : Bytes
  unitSize : Nat
  answer : Submission

/-- What is put on record of a run. -/
inductive Deed where
  /-- The worker is to feed the samples below a count. -/
  | aimed (count : Nat)
  | sent (x : Sending)
  /-- The stack takes in marks that its engine has reported. -/
  | took (marks : List Mark)
  | read (number : Nat) (events : List Event)
  | left (number : Nat)

section Records

def aimsOf (ds : List Deed) : List Nat :=
  ds.filterMap fun
    | .aimed count => some count
    | _ => none

def sentOf (ds : List Deed) : List Sending :=
  ds.filterMap fun
    | .sent x => some x
    | _ => none

def takenOf (ds : List Deed) : List Mark :=
  ds.flatMap fun
    | .took marks => marks
    | _ => []

/-- What a subscriber has read. -/
def readBy (k : Nat) (ds : List Deed) : List Event :=
  ds.flatMap fun
    | .read number events => if number = k then events else []
    | _ => []

variable {ds ds' : List Deed} {k : Nat}

@[simp] theorem aimsOf_append : aimsOf (ds ++ ds') = aimsOf ds ++ aimsOf ds' := List.filterMap_append

@[simp] theorem sentOf_append : sentOf (ds ++ ds') = sentOf ds ++ sentOf ds' := List.filterMap_append

@[simp] theorem takenOf_append : takenOf (ds ++ ds') = takenOf ds ++ takenOf ds' := List.flatMap_append

@[simp] theorem readBy_append : readBy k (ds ++ ds') = readBy k ds ++ readBy k ds' := List.flatMap_append

variable {count : Nat} {x : Sending} {ms : List Mark}

@[simp] theorem aimsOf_nil : aimsOf [] = [] := rfl

@[simp] theorem aimsOf_aimed : aimsOf (.aimed count :: ds) = count :: aimsOf ds := rfl

@[simp] theorem aimsOf_sent : aimsOf (.sent x :: ds) = aimsOf ds := rfl

@[simp] theorem aimsOf_took : aimsOf (.took ms :: ds) = aimsOf ds := rfl

@[simp] theorem sentOf_nil : sentOf [] = [] := rfl

@[simp] theorem sentOf_aimed : sentOf (.aimed count :: ds) = sentOf ds := rfl

@[simp] theorem sentOf_sent : sentOf (.sent x :: ds) = x :: sentOf ds := rfl

@[simp] theorem sentOf_took : sentOf (.took ms :: ds) = sentOf ds := rfl

@[simp] theorem takenOf_nil : takenOf [] = [] := rfl

@[simp] theorem takenOf_aimed : takenOf (.aimed count :: ds) = takenOf ds := rfl

@[simp] theorem takenOf_sent : takenOf (.sent x :: ds) = takenOf ds := rfl

@[simp] theorem takenOf_took : takenOf (.took ms :: ds) = ms ++ takenOf ds := rfl

theorem mem_sentOf : x ∈ sentOf ds ↔ .sent x ∈ ds := by
  rw [sentOf, List.mem_filterMap]
  constructor
  · rintro ⟨d, hd, hx⟩
    cases d <;> cases hx
    exact hd
  · exact fun h => ⟨_, h, rfl⟩

end Records

/-- A count that a worker in this phase is about to feed up to. -/
def Phase.aim : Phase → List Deed
  | .feeding _ count => [.aimed count]
  | _ => []

def Phase.hasEnded : Phase → Bool
  | .ended => true
  | _ => false

theorem wordBound_le_of_checkedAdd {a b : Nat} {f : Fault} (h : checkedAdd a b = .error f) : wordBound ≤ a + b := by
  unfold checkedAdd at h
  split at h
  · cases h
  · omega

namespace Stack
variable {ε : Type}

def aim (t : Stack ε) : List Deed :=
  match t.worker with
  | some w => w.phase.aim
  | none => []

theorem exists_of_hasEnded {t : Stack ε} (h : t.worker.any (·.phase.hasEnded) = true) :
    ∃ w, t.worker = some w ∧ w.phase = .ended := by
  cases hw : t.worker with
  | none => simp [hw] at h
  | some w =>
    have hended : w.phase.hasEnded = true := by simpa [hw] using h
    refine ⟨w, rfl, ?_⟩
    unfold Phase.hasEnded at hended
    split at hended
    · assumption
    · cases hended

variable [Engine ε]

/-- What the engine of a stack is handed next, when the samples below `fed` of those below `count` are fed. -/
def sending (t : Stack ε) (seg : Segment) (w : Worker) (fed count : Nat) : Sending :=
  let stop := min (fed + w.config.chunkSamples seg.unitSize) count
  let data := seg.samples fed stop
  ⟨fed, stop, data, seg.unitSize, (Engine.send t.engine fed stop data seg.unitSize).2⟩

/-- What a move of its worker that leads from a stack to another one puts on record. -/
def deeds (seg : Segment) (t t' : Stack ε) : List Deed :=
  match t.worker with
  | none => []
  | some w =>
    match w.phase with
    | .queued | .waiting _ => t'.aim
    | .feeding fed count =>
      if t.interrupted = false ∧ fed < count ∧ fed + w.config.chunkSamples seg.unitSize < wordBound then
        let x := t.sending seg w fed count
        .sent x :: if x.answer.held then [] else [.took x.answer.reported]
      else []
    | .held _ _ sub => [.took sub.reported]
    | .closing _ | .ended | .faulted => []

/-- What subscribers do. -/
inductive Visits : Broadcast → List Deed → Broadcast → Prop
  | subscribe {b : Broadcast} : Visits b [] b.subscribe.1
  | leave {b : Broadcast} (number : Nat) : Visits b [.left number] (b.leave number)
  | read {b b' : Broadcast} {number : Nat} {events : List Event} (h : b.read? number = some (events, b')) :
      Visits b [.read number events] b'

/-- One thing that happens to a stack and the segment of its run, and what it puts on record. -/
inductive Turn : Stack ε × Segment → List Deed → Stack ε × Segment → Prop
  | work {t t' : Stack ε} {seg : Segment} {w : Worker} (h : Proceeds (t, seg) (t', seg)) (hw : t.worker = some w)
      (hworks : Works seg t w t') : Turn (t, seg) (deeds seg t t') (t', seg)
  | visit {t : Stack ε} {seg : Segment} {ds : List Deed} {b : Broadcast} (h : Visits t.broadcast ds b) :
      Turn (t, seg) ds ({ t with broadcast := b }, seg)
  | apart {p q : Stack ε × Segment} (h : Proceeds p q) (hapart : Apart p q)
      (hsame : q.1.broadcast = p.1.broadcast) : Turn p [] q

/-- Any number of turns, with all that they put on record. -/
inductive Course : Stack ε × Segment → List Deed → Stack ε × Segment → Prop
  | refl {p : Stack ε × Segment} : Course p [] p
  | tail {p q r : Stack ε × Segment} {ds ds' : List Deed} (h : Course p ds q) (hturn : Turn q ds' r) :
      Course p (ds ++ ds') r

section Courses
variable {seg seg' : Segment} {t t' : Stack ε} {w : Worker} {ds ds' : List Deed} {p q r : Stack ε × Segment}

theorem Turn.proceeds (h : Turn p ds q) : Proceeds p q := by
  cases h with
  | work h => exact h
  | visit => exact .subscribers _
  | apart h => exact h

theorem Turn.enter (hw : t.worker = some w) (hp : w.phase = .queued) :
    Turn (t, seg) (deeds seg t (t.enter w seg).1) ((t.enter w seg).1, seg) :=
  .work (.enter hw hp) hw (works_of_enter hp)

theorem Turn.step {log : List LogEntry} (h : t.step? seg = some (t', log)) :
    Turn (t, seg) (deeds seg t t') (t', seg) := by
  obtain ⟨w, hw, hworks⟩ := works_of_step h
  exact .work (.step h) hw hworks

/-- What leaves the worker and the subscribers alone puts nothing on record. -/
theorem Turn.told (h : Proceeds (t, seg) (t', seg')) (hworker : t'.worker = t.worker)
    (hsame : t'.broadcast = t.broadcast) : Turn (t, seg) [] (t', seg') :=
  .apart h (apart_of_stays h fun _ hw => hworker.symm.trans hw) hsame

theorem Turn.announce : Turn (t, seg) [] (t.announce seg.size, seg) := by
  obtain ⟨i, hi⟩ := exists_announce t seg.size
  exact .told .announce (by rw [hi]) (by rw [hi])

theorem Turn.complete : Turn (t, seg) [] (t.complete, seg) := by
  obtain ⟨i, hi⟩ := exists_complete t
  exact .told .complete (by rw [hi]) (by rw [hi])

/-- Whatever happens is a turn, unless it happens to the subscribers only. -/
theorem exists_turn (h : Proceeds (t, seg) (t', seg')) :
    (∃ ds, Turn (t, seg) ds (t', seg')) ∨ (t', seg') = ({ t with broadcast := t'.broadcast }, seg) := by
  rcases proceeds_cases h with ⟨rfl, w, hw, hworks, -⟩ | hapart
  · exact .inl ⟨_, .work h hw hworks⟩
  · exact hapart.broadcast.imp_left fun hsame => ⟨[], .apart h hapart hsame⟩

theorem Course.proceeds (h : Course p ds q) : Relation.ReflTransGen Proceeds p q := by
  induction h with
  | refl => exact .refl
  | tail _ hturn ih => exact ih.tail hturn.proceeds

theorem Course.single (h : Turn p ds q) : Course p ds q := .tail .refl h

theorem Course.trans (h : Course p ds q) (h' : Course q ds' r) : Course p (ds ++ ds') r := by
  induction h' with
  | refl => rwa [List.append_nil]
  | tail _ hturn ih =>
    rw [← List.append_assoc]
    exact .tail ih hturn

/-- A turn is a move of the worker, or it leaves the run alone. -/
theorem turn_cases (h : Turn (t, seg) ds (t', seg')) :
    (seg' = seg ∧ ds = deeds seg t t' ∧ ∃ w, t.worker = some w ∧ Works seg t w t') ∨
      Apart (t, seg) (t', seg') ∧ (ds = [] ∧ t'.broadcast = t.broadcast ∨ Visits t.broadcast ds t'.broadcast) := by
  cases h with
  | work _ hw hworks => exact .inl ⟨rfl, rfl, _, hw, hworks⟩
  | visit hvisit => exact .inr ⟨⟨⟨rfl, rfl, rfl, rfl⟩, rfl, rfl, .inl rfl, id, .inl rfl, .inr rfl⟩, .inr hvisit⟩
  | apart _ hapart hsame => exact .inr ⟨hapart, .inl ⟨rfl, hsame⟩⟩

omit [Engine ε] in
/-- A turn apart from the worker puts on record at most that a subscriber reads or leaves. -/
theorem visits_silent {b b' : Broadcast} (h : ds = [] ∧ b' = b ∨ Visits b ds b') :
    aimsOf ds = [] ∧ sentOf ds = [] ∧ takenOf ds = [] := by
  rcases h with ⟨rfl, -⟩ | hvisit
  · exact ⟨rfl, rfl, rfl⟩
  · cases hvisit <;> exact ⟨rfl, rfl, rfl⟩

theorem Course.unitSize (h : Course p ds q) : q.2.unitSize = p.2.unitSize := by
  induction h with
  | refl => rfl
  | @tail q r _ _ _ hturn ih =>
    obtain ⟨t, seg⟩ := q
    obtain ⟨t', seg'⟩ := r
    rcases turn_cases hturn with ⟨rfl, -⟩ | ⟨hapart, -⟩
    · exact ih
    · rcases hapart.segment with rfl | ⟨units, happend⟩
      · exact ih
      · obtain ⟨-, rfl⟩ := Segment.append_eq_ok.1 happend
        exact ih

omit [Engine ε] in
@[simp] theorem aim_setPhase (p : Phase) : (t.setPhase w p).aim = p.aim := rfl

omit [Engine ε] in
@[simp] theorem aim_conclude (e : Option RunError) : (t.conclude w e).1.aim = [] := by
  unfold aim
  rw [worker_conclude]
  rfl

section Deeds
variable (hw : t.worker = some w)
include hw

theorem deeds_queued (hp : w.phase = .queued) : deeds seg t t' = t'.aim := by
  simp only [deeds, hw, hp]

theorem deeds_waiting {fed : Nat} (hp : w.phase = .waiting fed) : deeds seg t t' = t'.aim := by
  simp only [deeds, hw, hp]

theorem deeds_held {stop count : Nat} {sub : Submission} (hp : w.phase = .held stop count sub) :
    deeds seg t t' = [.took sub.reported] := by
  simp only [deeds, hw, hp]

theorem deeds_closing {e : Option RunError} (hp : w.phase = .closing e) : deeds seg t t' = [] := by
  simp only [deeds, hw, hp]

/-- A worker that is told to stop, has fed all or cannot count any further hands nothing over. -/
theorem deeds_idle {fed count : Nat} (hp : w.phase = .feeding fed count) (h : t.interrupted = true ∨ count ≤ fed ∨
    wordBound ≤ fed + w.config.chunkSamples seg.unitSize) : deeds seg t t' = [] := by
  simp only [deeds, hw, hp]
  refine if_neg fun hnot => ?_
  rw [hnot.1] at h
  simp at h
  omega

theorem deeds_feeding {fed count stop : Nat} {e : ε} {sub : Submission} (hp : w.phase = .feeding fed count)
    (hi : t.interrupted = false) (hlt : fed < stop) (hstop : stop = min (fed + w.config.chunkSamples seg.unitSize) count)
    (hs : Engine.send t.engine fed stop (seg.samples fed stop) seg.unitSize = (e, sub))
    (hsum : fed + w.config.chunkSamples seg.unitSize < wordBound) :
    deeds seg t t' = .sent ⟨fed, stop, seg.samples fed stop, seg.unitSize, sub⟩ ::
      if sub.held then [] else [.took sub.reported] := by
  have hx : t.sending seg w fed count = ⟨fed, stop, seg.samples fed stop, seg.unitSize, sub⟩ := by
    simp only [sending, ← hstop, hs]
  have hle : stop ≤ count := hstop ▸ Nat.min_le_right ..
  simp only [deeds, hw, hp, hx]
  exact if_pos ⟨hi, Nat.lt_of_lt_of_le hlt hle, hsum⟩

end Deeds

omit [Engine ε] in
theorem aim_cases : t.aim = [] ∨ ∃ count, t.aim = [.aimed count] := by
  unfold aim Phase.aim
  split
  · split
    · exact .inr ⟨_, rfl⟩
    · exact .inl rfl
  · exact .inl rfl

/-- Subscribers have no part in what a worker does. -/
theorem unheard_deeds (k : Nat) : readBy k (deeds seg t t') = [] ∧ .left k ∉ deeds seg t t' := by
  have haim : ∀ u : Stack ε, readBy k u.aim = [] ∧ .left k ∉ u.aim := by
    intro u
    rcases u.aim_cases with h | ⟨count, h⟩ <;> simp [h, readBy]
  unfold deeds
  split
  · simp [readBy]
  · split
    · exact haim t'
    · exact haim t'
    · split
      · dsimp only
        split <;> simp [readBy]
      · simp [readBy]
    all_goals simp [readBy]

theorem exists_of_sent_deeds {x : Sending} (h : .sent x ∈ deeds seg t t') : ∃ w fed count, t.worker = some w ∧
    w.phase = .feeding fed count ∧ t.interrupted = false ∧ fed < count ∧
      fed + w.config.chunkSamples seg.unitSize < wordBound ∧ x = t.sending seg w fed count := by
  unfold deeds at h
  split at h
  · cases h
  rename_i w hw
  have haim : .sent x ∉ t'.aim := by
    rcases t'.aim_cases with haim | ⟨count, haim⟩ <;> simp [haim]
  split at h
  · exact absurd h haim
  · exact absurd h haim
  · rename_i fed count hp
    split at h
    · rename_i hready
      refine ⟨w, fed, count, hw, hp, hready.1, hready.2.1, hready.2.2, ?_⟩
      rcases List.mem_cons.1 h with h | h
      · exact Deed.sent.inj h
      · split at h
        · cases h
        · cases List.mem_singleton.1 h
    · cases h
  · cases List.mem_singleton.1 h
  all_goals cases h

theorem exists_of_sent_turn {x : Sending} (h : Turn (t, seg) ds q) (hx : .sent x ∈ ds) : ∃ w fed count,
    t.worker = some w ∧ w.phase = .feeding fed count ∧ t.interrupted = false ∧ fed < count ∧
      fed + w.config.chunkSamples seg.unitSize < wordBound ∧ x = t.sending seg w fed count := by
  obtain ⟨t', seg'⟩ := q
  rcases turn_cases h with ⟨-, rfl, -⟩ | ⟨-, hvisit⟩
  · exact exists_of_sent_deeds hx
  · rw [← mem_sentOf, (visits_silent hvisit).2.1] at hx
    cases hx

end Courses

/-- At most a number of moves of a worker: what they put on record, and the stack after them. -/
def recorded (seg : Segment) : Nat → Stack ε → List Deed × Stack ε
  | 0, t => ([], t)
  | n + 1, t =>
    match t.step? seg with
    | none => ([], t)
    | some (t', _) => (deeds seg t t' ++ (recorded seg n t').1, (recorded seg n t').2)

theorem course_recorded (seg : Segment) (n : Nat) (t : Stack ε) :
    Course (t, seg) (recorded seg n t).1 ((recorded seg n t).2, seg) := by
  induction n generalizing t with
  | zero => exact .refl
  | succ n ih =>
    unfold recorded
    split
    · exact .refl
    · rename_i t' log hstep
      exact (Course.single (.step hstep)).trans (ih t')

theorem unheard_recorded (k : Nat) (seg : Segment) (n : Nat) (t : Stack ε) : .left k ∉ (recorded seg n t).1 := by
  induction n generalizing t with
  | zero => nofun
  | succ n ih =>
    unfold recorded
    split
    · nofun
    · rw [List.mem_append, not_or]
      exact ⟨(unheard_deeds k).2, ih _⟩

end Stack
end LogicDecode
