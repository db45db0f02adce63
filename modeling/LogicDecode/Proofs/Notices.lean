import LogicDecode.Proofs.Courses
import LogicDecode.Proofs.Inboxes
import LogicDecode.Trial.Script

/-!
# What subscribers are told of a run

A subscriber who stays is told of the marks of a run in groups, is told once more when the feeding is over,
then of the error, if there is one, and last that the run is finished: `eventsOf` lists these events.
`HeardAt` says how much of this has been told when the worker is in some phase. A run that breaks down tells
nobody of its end, so nothing is said about it.
-/

namespace LogicDecode

/-- All that was handed to the engine has been taken. -/
def AllTaken (ds : List Deed) : Prop := ∀ x ∈ sentOf ds, x.answer.outcome = .ok ()

/-- What subscribers are told of a whole run. -/
def eventsOf (period : Nat) (error : Option RunError) (ds : List Deed) : List Event :=
  List.replicate (if aimsOf ds = [] then 0 else notices period (takenOf ds).length + 1) .marks ++
    ((error.map fun e => .failed e.message).toList ++ [.finished])

namespace Stack
variable {ε : Type} {k period : Nat} {t t' : Stack ε} {seg seg' : Segment} {w : Worker} {ds ds' : List Deed}
  {before heard es : List Event}

/-- All that a subscriber has been told: what was read, and then what is in the inbox. -/
def Hears (k : Nat) (t : Stack ε) (ds : List Deed) (heard : List Event) : Prop :=
  ∃ inbox, t.broadcast.Attends k inbox ∧ readBy k ds ++ inbox = heard

theorem Hears.tell (h : t.Hears k ds heard) (hb : t'.broadcast = t.broadcast.sendAll es) (hread : readBy k ds' = []) :
    t'.Hears k (ds ++ ds') (heard ++ es) := by
  obtain ⟨inbox, hattends, rfl⟩ := h
  refine ⟨inbox ++ es, hb ▸ hattends.sendAll es, ?_⟩
  rw [readBy_append, hread, List.append_nil, List.append_assoc]

/-- What other subscribers do makes no difference, and what this one reads was in the inbox. -/
theorem attends_of_visits {b b' : Broadcast} {inbox : List Event} (h : b.Attends k inbox) (hvisit : Visits b ds b')
    (hleft : .left k ∉ ds) : ∃ inbox', b'.Attends k inbox' ∧ readBy k ds ++ inbox' = inbox := by
  cases hvisit with
  | subscribe => exact ⟨inbox, h.subscribe, rfl⟩
  | leave number =>
    have hne : number ≠ k := by
      rintro rfl
      simp at hleft
    exact ⟨inbox, h.leave hne, rfl⟩
  | read hread =>
    rcases h.read? hread with ⟨rfl, rfl, hempty⟩ | ⟨hne, hsame⟩
    · exact ⟨[], hempty, by simp [readBy]⟩
    · exact ⟨inbox, hsame, by simp [readBy, hne]⟩

theorem Hears.visit (h : t.Hears k ds heard)
    (hvisit : ds' = [] ∧ t'.broadcast = t.broadcast ∨ Visits t.broadcast ds' t'.broadcast) (hleft : .left k ∉ ds') :
    t'.Hears k (ds ++ ds') heard := by
  obtain ⟨inbox, hattends, rfl⟩ := h
  rcases hvisit with ⟨rfl, hb⟩ | hvisit
  · exact ⟨inbox, hb ▸ hattends, by rw [List.append_nil]⟩
  · obtain ⟨inbox', hattends', rfl⟩ := attends_of_visits hattends hvisit hleft
    exact ⟨inbox', hattends', by rw [readBy_append, List.append_assoc]⟩

/-- Subscribers have been told of the marks that a run has taken in, and of nothing else. -/
structure TellsMarks (k : Nat) (before : List Event) (period : Nat) (t : Stack ε) (ds : List Deed) : Prop where
  hears : t.Hears k ds (before ++ List.replicate (notices period (takenOf ds).length) .marks)
  stored : t.output.stored = (takenOf ds).length
  period : t.output.notifyPeriod = period
  error : t.output.error = none

theorem TellsMarks.move (h : TellsMarks k before period t ds) (hb : t'.broadcast = t.broadcast)
    (ho : t'.output = t.output) (htaken : takenOf ds' = []) (hread : readBy k ds' = []) :
    TellsMarks k before period t' (ds ++ ds') := by
  have hsame : takenOf (ds ++ ds') = takenOf ds := by rw [takenOf_append, htaken, List.append_nil]
  refine ⟨?_, by rw [ho, hsame, h.stored], ho ▸ h.period, ho ▸ h.error⟩
  have htold : t'.broadcast = t.broadcast.sendAll [] := hb
  have hears := h.hears.tell htold hread
  rwa [List.append_nil, ← hsame] at hears

theorem TellsMarks.absorb (h : TellsMarks k before period t ds) (hpos : 0 < period) {marks : List Mark} {o : Output}
    {b : Broadcast} {log : List LogEntry} (hs : storeAll marks t.output t.broadcast [] = (o, b, log, none))
    (hb : t'.broadcast = b) {n : Nat} (ho : t'.output = { o with decoded := n }) (htaken : takenOf ds' = marks)
    (hread : readBy k ds' = []) :
    TellsMarks k before period t' (ds ++ ds') := by
  obtain ⟨hstored, hperiod, htell⟩ := tell_of_storeAll hs
  have herror : o.error = t.output.error := by
    have := (storeAll_keeps marks t.output t.broadcast []).2.1
    rwa [hs] at this
  have hlength : (takenOf (ds ++ ds')).length = (takenOf ds).length + marks.length := by
    rw [takenOf_append, List.length_append, htaken]
  rw [h.period, h.stored] at htell
  obtain ⟨c, hc, hsend⟩ := Broadcast.exists_tell hpos t.broadcast (takenOf ds).length marks.length
  have htold := hb.trans (htell.trans hsend)
  have hears := h.hears.tell htold hread
  rw [List.append_assoc, List.replicate_append_replicate, ← hc, ← hlength] at hears
  refine ⟨hears, ?_, ?_, ?_⟩
  · rw [ho, hlength, ← h.stored]
    exact hstored
  · rw [ho]
    exact hperiod.trans h.period
  · rw [ho]
    exact herror.trans h.error

theorem allTaken_append (h : sentOf ds' = []) : AllTaken (ds ++ ds') ↔ AllTaken ds := by
  rw [AllTaken, AllTaken, sentOf_append, h, List.append_nil]

theorem TellsMarks.keep (h : TellsMarks k before period t ds ∧ aimsOf ds ≠ [] ∧ AllTaken ds)
    (hb : t'.broadcast = t.broadcast) (ho : t'.output = t.output) (htaken : takenOf ds' = []) (hread : readBy k ds' = [])
    (hsent : sentOf ds' = []) :
    TellsMarks k before period t' (ds ++ ds') ∧ aimsOf (ds ++ ds') ≠ [] ∧ AllTaken (ds ++ ds') :=
  ⟨h.1.move hb ho htaken hread, by simp [h.2.1], (allTaken_append hsent).2 h.2.2⟩

/-- What has been told of a run when its worker is in some phase, and what the engine has answered by then. -/
def HeardAt (k : Nat) (before : List Event) (period : Nat) (t : Stack ε) (ds : List Deed) : Phase → Prop
  | .queued => TellsMarks k before period t ds ∧ aimsOf ds = [] ∧ takenOf ds = [] ∧ AllTaken ds
  | .feeding .. | .waiting _ | .closing none => TellsMarks k before period t ds ∧ aimsOf ds ≠ [] ∧ AllTaken ds
  | .held _ _ sub => TellsMarks k before period t ds ∧ aimsOf ds ≠ [] ∧
      ∃ xs x, sentOf ds = xs ++ [x] ∧ x.answer = sub ∧ ∀ y ∈ xs, y.answer.outcome = .ok ()
  | .closing (some _) => TellsMarks k before period t ds ∧ aimsOf ds ≠ [] ∧ ¬ AllTaken ds
  | .ended => t.Hears k ds (before ++ eventsOf period t.output.error ds) ∧
      (t.output.error = none ↔ aimsOf ds ≠ [] ∧ AllTaken ds)
  | .faulted => True

theorem conclude_told (t : Stack ε) (w : Worker) (e : Option RunError) (herror : t.output.error = none) :
    (t.conclude w e).1.output.error = e ∧ (t.conclude w e).1.broadcast =
      t.broadcast.sendAll ((e.map fun e => .failed e.message).toList ++ [.finished]) := by
  cases e with
  | none => exact ⟨herror, rfl⟩
  | some e =>
    unfold conclude latch
    rw [herror]
    exact ⟨rfl, rfl⟩

theorem heardAt_conclude {u : Stack ε} (w : Worker) {e : Option RunError} {told : List Event}
    (herror : u.output.error = none) (h : u.Hears k ds (before ++ told))
    (htold : told = List.replicate (if aimsOf ds = [] then 0 else notices period (takenOf ds).length + 1) .marks)
    (hended : e = none ↔ aimsOf ds ≠ [] ∧ AllTaken ds) : ∀ w', (u.conclude w e).1.worker = some w' →
      (u.conclude w e).1.HeardAt k before period ds w'.phase := by
  obtain ⟨hlatched, hsent⟩ := conclude_told u w e herror
  intro w' hw'
  rw [worker_conclude] at hw'
  cases hw'
  have hnone : readBy k [] = [] := rfl
  have hears := h.tell hsent hnone
  rw [List.append_nil, List.append_assoc, htold] at hears
  refine ⟨?_, by rw [hlatched, hended]⟩
  rw [hlatched]
  exact hears

section Works
variable [Engine ε]

theorem heardAt_absorbs {stop count : Nat} {sub : Submission} {xs : List Sending} {x : Sending}
    (h : TellsMarks k before period t ds) (hpos : 0 < period) (ha : Absorbs t w stop count sub t')
    (htaken : takenOf ds' = sub.reported) (hread : readBy k ds' = []) (haims : aimsOf (ds ++ ds') ≠ [])
    (hsent : sentOf (ds ++ ds') = xs ++ [x]) (hx : x.answer = sub) (hxs : ∀ y ∈ xs, y.answer.outcome = .ok ()) :
    ∀ w', t'.worker = some w' → t'.HeardAt k before period (ds ++ ds') w'.phase := by
  intro w' hw'
  cases ha with
  | misfiled | broken =>
    cases hw'
    trivial
  | @refused o b log c hs hc =>
    cases hw'
    refine ⟨h.absorb hpos hs rfl (n := o.decoded) rfl htaken hread, haims, fun hall => ?_⟩
    have hlast := hall x (by rw [hsent]; simp)
    rw [hx, hc] at hlast
    cases hlast
  | taken hs hok =>
    cases hw'
    refine ⟨h.absorb hpos hs rfl rfl htaken hread, haims, fun y hy => ?_⟩
    rw [hsent, List.mem_append, List.mem_singleton] at hy
    rcases hy with hy | rfl
    · exact hxs y hy
    · rw [hx]
      exact hok

theorem heardAt_of_works (hpos : 0 < period) (h : t.HeardAt k before period ds w.phase) (hw : t.worker = some w)
    (hworks : Works seg t w t') :
    ∀ w', t'.worker = some w' → t'.HeardAt k before period (ds ++ deeds seg t t') w'.phase := by
  obtain ⟨hread, -⟩ : readBy k (deeds seg t t') = [] ∧ _ := unheard_deeds k
  cases hworks with
  | @turnedAway e n c hp =>
    rw [hp] at h
    obtain ⟨htells, haims, htaken, hall⟩ := h
    rw [deeds_queued hw hp, aim_conclude, List.append_nil]
    -- no session was started: nothing has been fed, so nothing is told of marks
    have hears := htells.hears
    rw [htaken, List.length_nil, notices_zero hpos] at hears
    exact heardAt_conclude w htells.error hears (by rw [if_pos haims]) (by simp [haims])
  | unbuilt =>
    intro w' hw'
    cases hw'
    trivial
  | opened hp =>
    rw [hp] at h
    obtain ⟨htells, -, -, hall⟩ := h
    rw [deeds_queued hw hp] at hread ⊢
    intro w' hw'
    cases hw'
    exact ⟨htells.move rfl rfl rfl hread, by simp [Phase.aim], (allTaken_append rfl).2 hall⟩
  | stopped hp hi =>
    rw [hp] at h
    rw [deeds_idle hw hp (.inl hi)] at hread ⊢
    intro w' hw'
    cases hw'
    exact TellsMarks.keep h rfl rfl rfl hread rfl
  | caughtUp hp _ hle =>
    rw [hp] at h
    rw [deeds_idle hw hp (.inr (.inl hle))] at hread ⊢
    intro w' hw'
    cases hw'
    exact TellsMarks.keep h rfl rfl rfl hread rfl
  | overflow =>
    intro w' hw'
    cases hw'
    trivial
  | @held fed count stop e sub hp hi hlt hstop hs hsum hheld =>
    rw [hp] at h
    obtain ⟨htells, haims, hall⟩ := h
    rw [deeds_feeding hw hp hi hlt hstop hs hsum, if_pos hheld] at hread ⊢
    intro w' hw'
    cases hw'
    exact ⟨htells.move rfl rfl rfl hread, by simp [haims], _, _, sentOf_append, rfl, hall⟩
  | @sent fed count stop e sub _ hp hi hlt hstop hs ha hsum hheld =>
    rw [hp] at h
    obtain ⟨htells, haims, hall⟩ := h
    rw [deeds_feeding hw hp hi hlt hstop hs hsum, hheld] at hread ⊢
    have htells : TellsMarks k before period { t with engine := e } ds :=
      ⟨htells.hears, htells.stored, htells.period, htells.error⟩
    exact heardAt_absorbs htells hpos ha (List.append_nil _) hread (by simp [haims]) sentOf_append rfl hall
  | @released stop count sub _ hp ha =>
    rw [hp] at h
    obtain ⟨htells, haims, xs, x, hsent, hx, hxs⟩ := h
    rw [deeds_held hw hp] at hread ⊢
    exact heardAt_absorbs htells hpos ha (List.append_nil _) hread (by simp [haims])
      (by rw [sentOf_append, hsent]; simp) hx hxs
  | roused hp =>
    rw [hp] at h
    rw [deeds_waiting hw hp] at hread ⊢
    intro w' hw'
    cases hw'
    exact TellsMarks.keep h rfl rfl rfl hread rfl
  | done hp =>
    rw [hp] at h
    rw [deeds_waiting hw hp] at hread ⊢
    intro w' hw'
    cases hw'
    exact TellsMarks.keep h rfl rfl rfl hread rfl
  | @closed error hp =>
    rw [hp] at h
    rw [deeds_closing hw hp, List.append_nil]
    have hgoing : TellsMarks k before period t ds ∧ aimsOf ds ≠ [] ∧ (error = none ↔ AllTaken ds) := by
      cases error with
      | none => exact ⟨h.1, h.2.1, by simpa using h.2.2⟩
      | some e => exact ⟨h.1, h.2.1, by simpa using h.2.2⟩
    obtain ⟨htells, haims, hall⟩ := hgoing
    -- the rest of the marks are told of once more before the session is closed
    let u : Stack ε := { t with broadcast := t.broadcast.send .marks, engine := Engine.closeSession t.engine }
    have htold : u.broadcast = t.broadcast.sendAll [.marks] := rfl
    have hnone : readBy k [] = [] := rfl
    have hears := htells.hears.tell htold hnone
    rw [List.append_nil, List.append_assoc] at hears
    refine heardAt_conclude w htells.error hears ?_ (hall.trans (by simp [haims]))
    rw [if_neg haims, List.replicate_succ']

omit [Engine ε] in
theorem HeardAt.visit {p : Phase} (h : t.HeardAt k before period ds p) (ho : t'.output = t.output)
    (hvisit : ds' = [] ∧ t'.broadcast = t.broadcast ∨ Visits t.broadcast ds' t'.broadcast) (hleft : .left k ∉ ds') :
    t'.HeardAt k before period (ds ++ ds') p := by
  obtain ⟨haims, hsent, htaken⟩ := visits_silent hvisit
  have haims : aimsOf (ds ++ ds') = aimsOf ds := by rw [aimsOf_append, haims, List.append_nil]
  have hsent : sentOf (ds ++ ds') = sentOf ds := by rw [sentOf_append, hsent, List.append_nil]
  have htaken : takenOf (ds ++ ds') = takenOf ds := by rw [takenOf_append, htaken, List.append_nil]
  have htells : TellsMarks k before period t ds → TellsMarks k before period t' (ds ++ ds') := by
    intro htells
    refine ⟨?_, by rw [ho, htaken, htells.stored], ho ▸ htells.period, ho ▸ htells.error⟩
    rw [htaken]
    exact htells.hears.visit hvisit hleft
  cases p with
  | queued | feeding | held | waiting =>
    simp only [HeardAt, AllTaken, haims, hsent, htaken] at h ⊢
    exact ⟨htells h.1, h.2⟩
  | closing error =>
    cases error <;> (simp only [HeardAt, AllTaken, haims, hsent] at h ⊢; exact ⟨htells h.1, h.2⟩)
  | ended =>
    simp only [HeardAt, AllTaken, eventsOf, haims, hsent, htaken, ho] at h ⊢
    exact ⟨h.1.visit hvisit hleft, h.2⟩
  | faulted => trivial

theorem heardAt_of_turn (hpos : 0 < period) (h : ∀ w, t.worker = some w → t.HeardAt k before period ds w.phase)
    (hturn : Turn (t, seg) ds' (t', seg')) (hleft : .left k ∉ ds') :
    ∀ w, t'.worker = some w → t'.HeardAt k before period (ds ++ ds') w.phase := by
  rcases turn_cases hturn with ⟨rfl, rfl, w, hw, hworks⟩ | ⟨hapart, hvisit⟩
  · exact heardAt_of_works hpos (h w hw) hw hworks
  · exact fun w hw => (h w (hapart.stays hw)).visit hapart.output hvisit hleft

theorem heardAt_of_course (hpos : 0 < period) {p q : Stack ε × Segment}
    (h : ∀ w, p.1.worker = some w → p.1.HeardAt k before period ds w.phase) (hcourse : Course p ds' q)
    (hleft : .left k ∉ ds') : ∀ w, q.1.worker = some w → q.1.HeardAt k before period (ds ++ ds') w.phase := by
  induction hcourse with
  | refl => rwa [List.append_nil]
  | tail _ hturn ih =>
    rw [List.mem_append, not_or] at hleft
    rw [← List.append_assoc]
    exact heardAt_of_turn hpos (ih hleft.1) hturn hleft.2

/-- Nobody is told anything when there is no worker at work. -/
theorem Hears.over {p q : Stack ε × Segment} (h : p.1.Hears k ds heard)
    (hover : ∀ w, p.1.worker = some w → w.phase.isOver = true) (hcourse : Course p ds' q) (hleft : .left k ∉ ds') :
    q.1.Hears k (ds ++ ds') heard ∧ ∀ w, q.1.worker = some w → w.phase.isOver = true := by
  induction hcourse with
  | refl => exact ⟨by rwa [List.append_nil], hover⟩
  | @tail q r _ _ _ hturn ih =>
    obtain ⟨t, seg⟩ := q
    obtain ⟨t', seg'⟩ := r
    rw [List.mem_append, not_or] at hleft
    obtain ⟨hbefore, hover⟩ := ih hleft.1
    rcases turn_cases hturn with ⟨-, -, w, hw, hworks⟩ | ⟨hapart, hvisit⟩
    · cases (hover w hw).symm.trans (isOver_of_works hworks)
    · rw [← List.append_assoc]
      exact ⟨hbefore.visit hvisit hleft.2, fun w hw => hover w (hapart.stays hw)⟩

end Works

section Told
variable [Engine ε] {s : Stack ε} {inbox : List Event}

omit [Engine ε] in
theorem heardAt_launch (hk : s.broadcast.Attends k inbox) (hcomplete : s.stages.all Stage.isComplete = true)
    (number : Nat) (first : Segment) : ∀ w, (s.launch (some (number, first))).1.worker = some w →
      (s.launch (some (number, first))).1.HeardAt k inbox (max s.config.notifyPeriod 1) [] w.phase := by
  unfold launch
  dsimp only [Stack.clear]
  rw [hcomplete, if_neg (by decide)]
  intro w hw
  cases hw
  have hpos : 0 < max s.config.notifyPeriod 1 := Nat.lt_of_lt_of_le Nat.zero_lt_one (Nat.le_max_right ..)
  refine ⟨⟨⟨inbox, hk, ?_⟩, rfl, rfl, rfl⟩, rfl, rfl, nofun⟩
  simp [takenOf, readBy, notices_zero hpos]

/-- What a subscriber is told who is there from the start of a run and stays. A run that comes to its end
tells of its marks, once for each group of as many as the period says, and once more when it is done with
feeding, if its session was started at all; then of its error, if it has failed; and last that it is
finished. It has failed if the session was not started or if the engine refused what it was handed. A
stack whose channels are missing only tells of the error, and one without a segment tells nothing. -/
theorem told_of_run (hk : s.broadcast.Attends k inbox) :
    (s.stages.all Stage.isComplete = true → ∀ number first ds t seg w es u useg,
        Course ((s.launch (some (number, first))).1, first) ds (t, seg) → t.worker = some w → w.phase = .ended →
        Course (t, seg) es (u, useg) → .left k ∉ ds ++ es →
        let period := max s.config.notifyPeriod 1
        u.Hears k (ds ++ es) (inbox ++ List.replicate
            (if aimsOf ds = [] then 0 else ((takenOf ds).length + period - 1) / period + 1) .marks ++
          (if t.output.error.isSome then [.failed t.output.errorMessage] else []) ++ [.finished]) ∧
        (t.output.error = none ↔ aimsOf ds ≠ [] ∧ ∀ x ∈ sentOf ds, x.answer.outcome = .ok ())) ∧
      (s.stages.all Stage.isComplete = false → s.worker = none → ∀ found seg es u useg,
        Course ((s.launch found).1, seg) es (u, useg) → .left k ∉ es →
        u.Hears k es (inbox ++ [.failed (s.launch found).1.output.errorMessage])) ∧
      (s.stages.all Stage.isComplete = true → s.worker = none → ∀ seg es u useg,
        Course ((s.launch none).1, seg) es (u, useg) → .left k ∉ es → u.Hears k es inbox) := by
  have hpos : 0 < max s.config.notifyPeriod 1 := Nat.lt_of_lt_of_le Nat.zero_lt_one (Nat.le_max_right ..)
  refine ⟨?_, ?_, ?_⟩
  · -- a run that has ended stays as it is, so what was told by then is all that is ever told
    intro hcomplete number first ds t seg w es u useg hrun hw hp hlater hleft period
    rw [List.mem_append, not_or] at hleft
    have hended := heardAt_of_course hpos (heardAt_launch hk hcomplete number first) hrun hleft.1 w hw
    rw [List.nil_append, hp] at hended
    obtain ⟨hears, hfailed⟩ := hended
    have hover : ∀ w', t.worker = some w' → w'.phase.isOver = true := by
      intro w' hw'
      cases hw.symm.trans hw'
      rw [hp]
      rfl
    refine ⟨?_, hfailed⟩
    have hevents : eventsOf period t.output.error ds = List.replicate
        (if aimsOf ds = [] then 0 else ((takenOf ds).length + period - 1) / period + 1) .marks ++
          ((if t.output.error.isSome then [.failed t.output.errorMessage] else []) ++ [.finished]) := by
      unfold eventsOf Output.errorMessage
      cases t.output.error <;> rfl
    have hall := (hears.over hover hlater hleft.2).1
    rw [hevents] at hall
    simpa using hall
  · intro hmissing hnone found seg es u useg hrun hleft
    have hlaunch : (s.launch found).1.worker = s.worker ∧ (s.launch found).1.broadcast =
        s.broadcast.sendAll [.failed (s.launch found).1.output.errorMessage] := by
      unfold launch
      dsimp only [Stack.clear]
      rw [hmissing]
      exact ⟨rfl, rfl⟩
    have hears : (s.launch found).1.Hears k [] (inbox ++ [.failed (s.launch found).1.output.errorMessage]) :=
      ⟨_, hlaunch.2 ▸ hk.sendAll _, rfl⟩
    exact (hears.over (fun w hw => by rw [hlaunch.1, hnone] at hw; cases hw) hrun hleft).1
  · intro hcomplete hnone seg es u useg hrun hleft
    have hlaunch : (s.launch none).1.worker = s.worker ∧ (s.launch none).1.broadcast = s.broadcast := by
      unfold launch
      dsimp only [Stack.clear]
      rw [hcomplete]
      exact ⟨rfl, rfl⟩
    have hears : (s.launch none).1.Hears k [] inbox := ⟨_, hlaunch.2 ▸ hk, rfl⟩
    exact (hears.over (fun w hw => by rw [hlaunch.1, hnone] at hw; cases hw) hrun hleft).1

/-- A run that takes in three marks, tells of every second one, and then fails. -/
theorem told_of_run_refused :
    let stage : Stage := .ofProfile ⟨"d", "D", "D", [], [], [], []⟩
    let mark : Mark := ⟨0, 1, "d", 0, []⟩
    let script : Script := ⟨[mark, mark, { mark with start := 1 }], none, none, none, none, some 2, [], 0, []⟩
    let s : Stack Script := { Stack.create [stage] script ⟨1, 2⟩ .running .shared with broadcast := ⟨1, [⟨0, true, #[]⟩]⟩ }
    let seg : Segment := ⟨1, 0.0, 0.0, #[0, 0, 0], by decide⟩
    s.broadcast.Attends 0 [] ∧ s.stages.all Stage.isComplete = true ∧
      ∃ ds t w, Course ((s.launch (some (0, seg))).1, seg) ds (t, seg) ∧ t.worker = some w ∧ w.phase = .ended ∧
        .left 0 ∉ ds ∧ t.Hears 0 ds
          [.marks, .marks, .marks, .failed "Decoder reported an error: scripted failure", .finished] := by
  intro stage mark script s seg
  let t := (s.launch (some (0, seg))).1
  let w : Worker := ⟨[stage], 0, if seg.rate == 0.0 then 1.0 else seg.rate, s.config, .queued⟩
  let r := recorded seg 9 (t.enter w seg).1
  let ds := deeds seg t (t.enter w seg).1 ++ r.1
  have hworker : t.worker = some w := rfl
  have hcourse : Course (t, seg) ds (r.2, seg) :=
    (Course.single (.enter hworker rfl)).trans (course_recorded seg 9 _)
  have hleft : .left 0 ∉ ds := by
    rw [List.mem_append, not_or]
    exact ⟨(unheard_deeds 0).2, unheard_recorded 0 seg 9 _⟩
  have hended : r.2.worker.any (·.phase.hasEnded) = true := by decide +kernel
  have herror : r.2.output.error.isSome = true := by decide +kernel
  have hmessage : r.2.output.errorMessage = "Decoder reported an error: scripted failure" := by decide +kernel
  have haims : aimsOf ds = [3] := by decide +kernel
  have htaken : (takenOf ds).length = 3 := by decide +kernel
  have hperiod : max s.config.notifyPeriod 1 = 2 := by decide
  have hk : s.broadcast.Attends 0 [] := ⟨by decide, rfl⟩
  have hcomplete : s.stages.all Stage.isComplete = true := by decide
  clear_value ds r
  obtain ⟨w', hw', hp⟩ := exists_of_hasEnded hended
  obtain ⟨hrun, -, -⟩ := told_of_run hk
  obtain ⟨hears, -⟩ := hrun hcomplete 0 seg ds r.2 seg w' [] r.2 seg hcourse hw' hp .refl (by rwa [List.append_nil])
  rw [List.append_nil, haims, htaken, herror, hmessage, hperiod] at hears
  exact ⟨hk, hcomplete, ds, r.2, w', hcourse, hw', hp, hleft, hears⟩

end Told
end Stack
end LogicDecode
