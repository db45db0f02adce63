import LogicDecode.Proofs.Advances
import LogicDecode.Proofs.Serving
import Mathlib.Algebra.Order.BigOperators.Group.List
import Mathlib.Algebra.Order.Group.Nat

/-!
# Runs of the library's decoders

A host of the library's decoders is an orderly engine for every chain of stages (`Host.orderly`), and the
marks that it reports of a chunk do not reach behind the chunk. So a run of such a chain stores all that
is reported, and what is stored never reaches behind the samples decoded (`Stack.timely_of_run`).
-/

namespace LogicDecode

/-- Any signals are bits of a unit that is large enough. -/
theorem exists_wired (stages : List Stage) : ∃ unitSize, Wired unitSize stages := by
  refine ⟨(stages.flatMap fun stage => stage.signals.map fun p => p.2.bit + 1).sum, fun stage hstage p hp => ?_⟩
  have hmem : p.2.bit + 1 ∈ stages.flatMap fun stage => stage.signals.map fun p => p.2.bit + 1 :=
    List.mem_flatMap.2 ⟨stage, hstage, List.mem_map_of_mem hp⟩
  have hle := List.le_sum_of_mem hmem
  omega

namespace Session
variable {stages : List Stage} {n stop : Nat} {s : Session Builtin} {ms : List Mark}

/-- A session of a chain of stages that has taken the samples below `n` and reported the marks `ms`. -/
structure InStep (stages : List Stage) (n : Nat) (s : Session Builtin) (ms : List Mark) : Prop where
  reporting : s.reporting = true
  known : ∀ x ∈ s.instances, ∃ stage ∈ stages, stage.profile.id = x.decoder
  paced : Paced n s.instances ms

theorem InStep.marks (h : InStep stages n s ms) (hle : n ≤ stop) :
    (ms.Pairwise fun a b => a.start ≤ b.start) ∧ ∀ m ∈ ms, m.start < m.stop ∧ m.stop ≤ stop ∧
      ∃ stage ∈ stages, stage.profile.id = m.decoder := by
  refine ⟨h.paced.sorted, fun m hm => ?_⟩
  obtain ⟨hlt, hstop, x, hx, hid⟩ := h.paced.within m hm
  exact ⟨hlt, Nat.le_trans hstop hle, hid ▸ h.known x hx⟩

/-- A session takes samples in full, or it turns them away. -/
theorem InStep.send (h : InStep stages n s ms) {data : Bytes} {unitSize : Nat} (hle : n ≤ stop) (hpos : 0 < unitSize)
    (hsize : data.size = (stop - n) * unitSize) :
    ((s.send n stop data unitSize).reported = [] ∧ ∃ f, (s.send n stop data unitSize).outcome = .error f) ∨
      (s.send n stop data unitSize).outcome = .ok () ∧
        InStep stages stop (s.send n stop data unitSize).session (ms ++ (s.send n stop data unitSize).reported) := by
  unfold Session.send
  split
  · exact .inl ⟨rfl, _, rfl⟩
  · obtain ⟨xs, new, hrun, hpaced, hdecoders⟩ := h.paced.run ⟨n, data, unitSize⟩ rfl
    have hstop : (Chunk.mk n data unitSize).stop = stop := by
      rw [Chunk.stop, Chunk.size, hsize, Nat.mul_div_cancel _ hpos]
      exact Nat.add_sub_cancel' hle
    rw [hstop] at hpaced
    rw [hrun]
    simp only [h.reporting, if_true]
    refine .inr ⟨trivial, rfl, fun x hx => ?_, hpaced⟩
    obtain ⟨y, hy, hyx⟩ := List.mem_map.1 (hdecoders ▸ List.mem_map_of_mem hx)
    rw [← hyx]
    exact h.known y hy

end Session

namespace Host
variable {e₀ e e' : Host Builtin} {stages : List Stage} {n stop : Nat} {ms : List Mark} {sub : Submission}

theorem inStep_of_started {e₁ e₂ e₃ : Host Builtin} {hz : Nat} (hregistry : e.registry = Builtin.registry)
    (ho : Engine.openSession e = (e₁, .ok ())) (hb : Stack.build e₁ none stages = (e₂, .ok ()))
    (hs : Engine.start (Engine.attach (Engine.setRate e₂ hz)) = (e₃, .ok ())) :
    ∃ s, e₃.session = some s ∧ s.InStep stages 0 [] := by
  obtain ⟨b, hbuilds, hsession, hstarted⟩ := exists_started ho hb hs
  rw [hregistry] at hbuilds
  obtain ⟨unitSize, hwired⟩ := exists_wired stages
  obtain rfl : { e with session := some (.ofRegistry e.registry) } = e₁ := congrArg Prod.fst ho
  rw [hregistry] at hb
  obtain ⟨b', hb', hstacking⟩ := stacking_of_build hwired rfl .empty rfl hb
  cases hsession.symm.trans hb'
  refine ⟨_, hstarted, rfl, fun x hx => ?_, ?_, fun _ => rfl, fun x hx => ?_⟩
  · obtain ⟨y, hy, rfl⟩ := List.mem_map.1 hx
    rcases hbuilds.signed y hy with ⟨z, hz, -⟩ | ⟨stage, hstage, r, hr, hid⟩
    · cases hz
    · exact ⟨stage, hstage, (Registry.mem_of_get?_ofList hr).2.symm.trans hid⟩
  · intro i x hx
    obtain ⟨y, hy, rfl⟩ := Option.map_eq_some_iff.1 ((List.getElem?_map ..).symm.trans hx)
    exact hstacking.chained i y hy
  · obtain ⟨y, -, rfl⟩ := List.mem_map.1 (List.mem_of_mem_head? hx)
    refine ⟨[], rfl, ?_⟩
    rw [Builtin.begun?_start]
    exact .idle nofun (Nat.le_refl 0)

theorem answer_of_sends {s : Session Builtin} (hs : e.session = some s) (h : s.InStep stages n ms)
    (hsends : Engine.Sends e n stop sub e') : (sub.reported = [] ∧ ∃ f, sub.outcome = .error f) ∨
      sub.outcome = .ok () ∧ ∃ s', e'.session = some s' ∧ s'.InStep stages stop (ms ++ sub.reported) := by
  obtain ⟨data, unitSize, hpos, hsize, hsend⟩ := hsends.sent
  obtain ⟨hsession, rfl⟩ := session_of_send hs hsend
  rcases h.send (Nat.le_of_lt hsends.lt) hpos hsize with hrefused | ⟨hok, hstep⟩
  · exact .inl hrefused
  · exact .inr ⟨hok, _, hsession, hstep⟩

variable (hregistry : e₀.registry = Builtin.registry)
include hregistry

theorem inStep_of_serves (h : Engine.Serves e₀ stages e n ms) : ∃ s, e.session = some s ∧ s.InStep stages n ms := by
  induction h with
  | started he ho hb hs => exact inStep_of_started ((registry_of_reaches he).trans hregistry) ho hb hs
  | sent _ hsends hok ih =>
    obtain ⟨s, hs, hstep⟩ := ih
    rcases answer_of_sends hs hstep hsends with ⟨-, f, hf⟩ | ⟨-, hnext⟩
    · cases hok.symm.trans hf
    · exact hnext

/-- With what they report of a chunk, too, the marks of a run are in order and end with the chunk. -/
theorem marks_of_sends (hserves : Engine.Serves e₀ stages e n ms) (hsends : Engine.Sends e n stop sub e') :
    ((ms ++ sub.reported).Pairwise fun a b => a.start ≤ b.start) ∧ ∀ m ∈ ms ++ sub.reported, m.start < m.stop ∧
      m.stop ≤ stop ∧ ∃ stage ∈ stages, stage.profile.id = m.decoder := by
  obtain ⟨s, hs, hstep⟩ := inStep_of_serves hregistry hserves
  rcases answer_of_sends hs hstep hsends with ⟨hnone, -⟩ | ⟨-, s', -, hnext⟩
  · rw [hnone, List.append_nil]
    exact hstep.marks (Nat.le_of_lt hsends.lt)
  · exact hnext.marks (Nat.le_refl stop)

theorem orderly (stages : List Stage) : Engine.Orderly e₀ stages := by
  intro e e' n stop ms sub hserves hsends
  obtain ⟨hsorted, hwithin⟩ := marks_of_sends hregistry hserves hsends
  exact ⟨fun m hm => (hwithin m hm).2.2, hsorted⟩

end Host

namespace Stack
variable {σ : Type} [Protocol σ] {s t t' : Stack (Host σ)} {seg seg' : Segment} {w w' : Worker} {ds : List Deed}

/-- A host never keeps the worker waiting. -/
theorem not_held_of_works (h : Works seg t w t') (hw' : t'.worker = some w') :
    ∀ stop count sub, w'.phase ≠ .held stop count sub := by
  cases h with
  | turnedAway | closed =>
    rw [worker_conclude] at hw'
    cases hw'
    nofun
  | held _ _ _ _ hs _ hheld =>
    rw [Host.held_of_send hs] at hheld
    cases hheld
  | sent _ _ _ _ _ ha | released _ ha =>
    cases ha <;> (cases hw'; nofun)
  | unbuilt | opened | stopped | caughtUp | overflow | roused | done =>
    cases hw'
    nofun

/-- What the engine has reported, chunk after chunk. -/
def reportedOf (ds : List Deed) : List Mark := (sentOf ds).flatMap fun x => x.answer.reported

/-- The worker takes in what a host reports at once. -/
theorem taken_of_turn {q : Stack (Host σ) × Segment} (h : Turn (t, seg) ds q)
    (hfree : ∀ w stop count sub, t.worker = some w → w.phase ≠ .held stop count sub) : takenOf ds = reportedOf ds := by
  have haim : ∀ u : Stack (Host σ), takenOf u.aim = reportedOf u.aim := by
    intro u
    rcases u.aim_cases with haim | ⟨count, haim⟩ <;> (rw [haim]; rfl)
  obtain ⟨t', seg'⟩ := q
  rcases turn_cases h with ⟨-, rfl, w, hw, hworks⟩ | ⟨-, hvisit⟩
  · unfold deeds
    rw [hw]
    dsimp only
    split
    · exact haim t'
    · exact haim t'
    · rename_i fed count hp
      split
      · have hheld : (t.sending seg w fed count).answer.held = false := Host.held_of_send rfl
        rw [hheld]
        simp [reportedOf]
      · rfl
    · rename_i stop count sub hp
      exact absurd hp (hfree w stop count sub hw)
    all_goals rfl
  · obtain ⟨-, hsent, htaken⟩ := visits_silent hvisit
    rw [htaken, reportedOf, hsent, List.flatMap_nil]

variable {e₀ : Host Builtin} {stages : List Stage} {s t t' : Stack (Host Builtin)} {period : Nat} {ms : List Mark}

/-- A run has stored the marks `ms`, which are in order and do not reach behind the samples decoded. -/
structure Timely (e₀ : Host Builtin) (stages : List Stage) (period : Nat) (t : Stack (Host Builtin)) (seg : Segment)
    (ms : List Mark) : Prop where
  tends : Tends e₀ stages t seg ms
  free : ∀ w stop count sub, t.worker = some w → w.phase ≠ .held stop count sub
  config : ∀ w, t.worker = some w → max w.config.notifyPeriod 1 = period
  holds : HoldsMarks (.ofProfiles (stages.map (·.profile))) period ms t.output
  sorted : ms.Pairwise fun a b => a.start ≤ b.start
  within : ∀ m ∈ ms, m.stop ≤ t.output.decoded ∧ ∃ stage ∈ stages, stage.profile.id = m.decoder

namespace Timely

theorem launch (hcomplete : s.stages.all Stage.isComplete = true) (number : Nat) (first : Segment) :
    Timely s.engine s.stages (max s.config.notifyPeriod 1) (s.launch (some (number, first))).1 first [] := by
  have htends := Tends.launch hcomplete number first
  have hholds := holds_launch hcomplete (some (number, first))
  obtain ⟨i, o, rate, heq, -⟩ := exists_launch s hcomplete number first
  rw [heq] at htends hholds ⊢
  refine ⟨htends, fun w stop count sub hw => ?_, fun w hw => ?_, hholds, .nil, nofun⟩
  · cases hw
    nofun
  · cases hw
    rfl

theorem reach (h : Timely e₀ stages period t seg ms) : t.output.reach ≤ t.output.decoded := by
  rw [h.holds.reach (.ofProfiles _) fun m hm => isSome_classify_of_stage (h.within m hm).2]
  refine List.foldlRecOn (motive := (· ≤ t.output.decoded)) _ max (Nat.zero_le _) fun n hn stop hstop => ?_
  refine Nat.max_le.2 ⟨hn, ?_⟩
  obtain ⟨m, hm, rfl⟩ := List.mem_map.1 hstop
  exact (h.within m hm).1

variable (hregistry : e₀.registry = Builtin.registry)
include hregistry

theorem works (h : Timely e₀ stages period t seg ms) (hw : t.worker = some w) (hworks : Works seg t w t')
    (htends : Tends e₀ stages t' seg (ms ++ takenOf (deeds seg t t'))) :
    Timely e₀ stages period t' seg (ms ++ takenOf (deeds seg t t')) := by
  obtain ⟨hchain, hserves⟩ := h.tends.serves w hw
  have hperiod := h.config w hw
  have hlive : Live e₀ stages t seg w ms := ⟨hchain, h.tends.counts, hperiod ▸ h.holds, hserves⟩
  have horderly := Host.orderly hregistry stages
  have hholds := holds_of_works hlive horderly hw hworks
  rw [hperiod] at hholds
  have hsuffices : ((ms ++ takenOf (deeds seg t t')).Pairwise fun a b => a.start ≤ b.start) ∧
      ∀ m ∈ ms ++ takenOf (deeds seg t t'), m.stop ≤ t'.output.decoded ∧
        ∃ stage ∈ stages, stage.profile.id = m.decoder := by
    rcases output_of_works hw hworks with ⟨hnone, err, houtput⟩ | ⟨stop, count, sub, e, htaken, ht, ha⟩
    · rw [hnone, List.append_nil, houtput]
      exact ⟨h.sorted, h.within⟩
    · rw [htaken]
      obtain ⟨e', n, hbefore, hsends⟩ := sends_of_takes h.tends.counts hserves hw ht
      obtain ⟨hsorted, hwithin⟩ := Host.marks_of_sends hregistry hbefore hsends
      obtain ⟨s, hs, hstep⟩ := Host.inStep_of_serves hregistry hbefore
      obtain ⟨o, b, log, hstore, -⟩ := stores_of_takes hlive horderly hw ht
      refine ⟨hsorted, ?_⟩
      rcases Host.answer_of_sends hs hstep hsends with ⟨hnone, f, hf⟩ | ⟨hok, -⟩
      · -- the samples were turned away, so there is nothing new
        rcases output_of_absorbs ha hstore with ⟨-, houtput⟩ | ⟨hok, -⟩
        · rw [hnone] at hstore ⊢
          cases hstore
          rw [List.append_nil, houtput]
          exact h.within
        · cases hf.symm.trans hok
      · rcases output_of_absorbs ha hstore with ⟨⟨f, hf⟩, -⟩ | ⟨-, houtput⟩
        · cases hok.symm.trans hf
        · rw [houtput]
          exact fun m hm => (hwithin m hm).2
  obtain ⟨p, hp⟩ := (keeps_of_works hworks).2
  refine ⟨htends, fun w' stop count sub hw' => not_held_of_works hworks hw' stop count sub, fun w' hw' => ?_, hholds,
    hsuffices.1, hsuffices.2⟩
  cases hp.symm.trans hw'
  exact hperiod

theorem turn (h : Timely e₀ stages period t seg ms) (hturn : Turn (t, seg) ds (t', seg')) :
    Timely e₀ stages period t' seg' (ms ++ reportedOf ds) := by
  have htends := h.tends.turn hturn
  rw [← taken_of_turn hturn h.free]
  rcases turn_cases hturn with ⟨rfl, rfl, w, hw, hworks⟩ | ⟨hapart, hvisit⟩
  · exact h.works hregistry hw hworks htends
  · have houtput : t'.output = t.output := hapart.output
    rw [(visits_silent hvisit).2.2, List.append_nil] at htends ⊢
    exact ⟨htends, fun w stop count sub hw => h.free w stop count sub (hapart.stays hw),
      fun w hw => h.config w (hapart.stays hw), houtput ▸ h.holds, h.sorted, houtput ▸ h.within⟩

theorem course {p q : Stack (Host Builtin) × Segment} (h : Timely e₀ stages period p.1 p.2 ms)
    (hcourse : Course p ds q) : Timely e₀ stages period q.1 q.2 (ms ++ reportedOf ds) := by
  induction hcourse with
  | refl => simpa [reportedOf] using h
  | tail _ hturn ih =>
    have hnext := ih.turn hregistry hturn
    rw [List.append_assoc] at hnext
    simpa [reportedOf] using hnext

/-- What the worker hands over next is answered with marks that end within it and that can be stored. -/
theorem handed (h : Timely e₀ stages period t seg ms) {q : Stack (Host Builtin) × Segment} (hturn : Turn (t, seg) ds q)
    {x : Sending} (hx : .sent x ∈ ds) : (∀ m ∈ x.answer.reported, m.start < m.stop ∧ m.stop ≤ x.stop) ∧
      ∃ o b log, storeAll x.answer.reported t.output t.broadcast [] = (o, b, log, none) := by
  obtain ⟨hserves, hlt, hunit, hsize, e, hsend⟩ := h.tends.handed hturn hx
  have hsends : Engine.Sends t.engine x.start x.stop x.answer e :=
    ⟨hlt, x.data, x.unitSize, hunit ▸ seg.unitSize_pos, hsize, hsend⟩
  obtain ⟨hsorted, hwithin⟩ := Host.marks_of_sends hregistry hserves hsends
  refine ⟨fun m hm => ?_, ?_⟩
  · obtain ⟨hspan, hstop, -⟩ := hwithin m (List.mem_append_right _ hm)
    exact ⟨hspan, hstop⟩
  · obtain ⟨o, new, hstore, -⟩ := h.holds.storeAll (.ofProfiles _)
      (fun m hm => isSome_classify_of_stage (hwithin m (List.mem_append_right _ hm)).2.2)
      (RowTable.inOrder_of_pairwise _ hsorted) t.broadcast []
    exact ⟨o, _, _, hstore⟩

end Timely

/-- A run of the library's decoders, whatever their signals, options and rows, never puts the store at fault.
Each mark reported of a chunk ends within the chunk, behind its own start; all marks of the run are in the
order of their starts; no mark is without a row or out of order when it is stored; and between two chunks
what is stored does not reach behind the samples decoded. -/
theorem timely_of_run {number : Nat} {first : Segment} (hregistry : s.engine.registry = Builtin.registry)
    (hcomplete : s.stages.all Stage.isComplete = true)
    (h : Course ((s.launch (some (number, first))).1, first) ds (t, seg)) :
    (∀ x ∈ sentOf ds, ∀ m ∈ x.answer.reported, m.start < m.stop ∧ m.stop ≤ x.stop) ∧
      (reportedOf ds).Pairwise (fun a b => a.start ≤ b.start) ∧
      t.output.reach ≤ t.output.decoded ∧
      ∀ ds' q x, Turn (t, seg) ds' q → .sent x ∈ ds' →
        ∃ o b log, storeAll x.answer.reported t.output t.broadcast [] = (o, b, log, none) := by
  have hlaunch := Timely.launch hcomplete number first
  have htimely := hlaunch.course hregistry h
  refine ⟨?_, htimely.sorted, htimely.reach, fun ds' q x hturn hx => (htimely.handed hregistry hturn hx).2⟩
  clear htimely
  generalize hq : (t, seg) = q at h
  clear hq
  induction h with
  | refl => nofun
  | @tail q r _ _ hcourse hturn ih =>
    intro x hx
    rw [sentOf_append, List.mem_append] at hx
    rcases hx with hx | hx
    · exact ih x hx
    · exact ((hlaunch.course hregistry hcourse).handed hregistry hturn (mem_sentOf.1 hx)).1

/-- An SPI decoder below a parallel one, with a signal that is no bit of the unit and rows of their own; four
samples are handed over one by one. -/
theorem timely_of_run_outside :
    let spi : Stage := ⟨{ Spi.profile with rows := [⟨"r", "R", [Spi.misoData]⟩] },
      [("clk", ⟨"clk", 0, none⟩), ("miso", ⟨"miso", 9, none⟩), ("mosi", ⟨"mosi", 1, none⟩)], [("wordsize", .int 2)], true⟩
    let bus : Stage := ⟨Parallel.profile, [("clk", ⟨"clk", 0, none⟩), ("d0", ⟨"d0", 70, none⟩)], [], true⟩
    let s : Stack (Host Builtin) :=
      .create [spi, bus] (.ofRegistry Builtin.registry) (Config.standard.withChunkBytes 0) .stopped .shared
    let seg : Segment := ⟨1, 0.0, 0.0, #[0, 3, 0, 1], by decide⟩
    s.engine.registry = Builtin.registry ∧ s.stages.all Stage.isComplete = true ∧ ∃ ds t w,
      Course ((s.launch (some (0, seg))).1, seg) ds (t, seg) ∧ t.worker = some w ∧ w.phase = .ended ∧
        reportedOf ds = [⟨1, 4, "spi", 0, ["2"]⟩, ⟨1, 4, "spi", 1, ["0"]⟩] ∧
        (∀ x ∈ sentOf ds, ∀ m ∈ x.answer.reported, m.start < m.stop ∧ m.stop ≤ x.stop) ∧
        (reportedOf ds).Pairwise (fun a b => a.start ≤ b.start) ∧ t.output.reach ≤ t.output.decoded := by
  intro spi bus s seg
  let t := (s.launch (some (0, seg))).1
  let w : Worker := ⟨[spi, bus], 0, if seg.rate == 0.0 then 1.0 else seg.rate, s.config, .queued⟩
  let r := recorded seg 9 (t.enter w seg).1
  let ds := deeds seg t (t.enter w seg).1 ++ r.1
  have hworker : t.worker = some w := rfl
  have hcourse : Course (t, seg) ds (r.2, seg) := (Course.single (.enter hworker rfl)).trans (course_recorded seg 9 _)
  have hended : r.2.worker.any (·.phase.hasEnded) = true := by decide +kernel
  have hreported : reportedOf ds = [⟨1, 4, "spi", 0, ["2"]⟩, ⟨1, 4, "spi", 1, ["0"]⟩] := by decide +kernel
  have hcomplete : s.stages.all Stage.isComplete = true := by decide
  clear_value ds r
  obtain ⟨w', hw', hp⟩ := exists_of_hasEnded hended
  obtain ⟨hwithin, hsorted, hreach, -⟩ := timely_of_run (s := s) rfl hcomplete hcourse
  exact ⟨rfl, hcomplete, ds, r.2, w', hcourse, hw', hp, hreported, hwithin, hsorted, hreach⟩

end Stack
end LogicDecode
