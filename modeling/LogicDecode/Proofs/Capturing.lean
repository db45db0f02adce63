import LogicDecode.Proofs.Feeding
import LogicDecode.Proofs.Timely

/-!
# Decoding while the capture goes on

A run of a stack on an engine of the library's decoders goes on while its segment grows, data is
announced, and the run is told to stop, in any order. `RunInv` holds at any time, also when the worker has broken
down: the marks in the samples that count as decoded are stored, and no others. While the worker goes on, its engine
has been fed the samples that it counts as fed. So what is stored depends on the samples decoded only, and is what a
run that is given them as one chunk stores (`tracks_eq_offline`).
-/

namespace LogicDecode

/-- Where the engine of a worker stands. -/
def AtPhase (stages : List Stage) (hz : Nat) (t : Stack (Host Builtin)) (seg : Segment) : Phase → Prop
  | .feeding fed _ | .waiting fed =>
    ∃ s, openChain stages hz = some s ∧ t.engine.session = some (s.fedTo seg.levels fed)
  | .held .. => False
  | .queued | .closing _ | .ended | .faulted => True

/-- A run of stages at a rate, at any time. -/
structure RunInv (stages : List Stage) (hz unitSize : Nat) (t : Stack (Host Builtin)) (seg : Segment) : Prop where
  unit : seg.unitSize = unitSize
  counts : t.Counts seg
  sound : ∃ e₀ : Host Builtin, e₀.registry = Builtin.registry ∧ Stack.Sound e₀ stages t seg
  worker : ∀ w, t.worker = some w →
    w.stages = stages ∧ w.rate.toUInt64.toNat = hz ∧ AtPhase stages hz t seg w.phase
  filed : Files (blank stages) (marksOf stages hz seg.levels t.output.decoded) t.output

theorem AtPhase.congr {stages : List Stage} {hz : Nat} {t t' : Stack (Host Builtin)} {seg : Segment} {p : Phase}
    (h : AtPhase stages hz t seg p) (hengine : t'.engine = t.engine) : AtPhase stages hz t' seg p := by
  unfold AtPhase at h ⊢
  rwa [hengine]

section Run
variable {stages : List Stage} {hz unitSize : Nat} {t t' : Stack (Host Builtin)} {seg seg' : Segment} {w : Worker}

theorem levels_append {units : Bytes} (hunit : seg.unitSize = unitSize) (happend : seg.append units = .ok seg')
    {n : Nat} (hn : n ≤ seg.size) : ∀ i c, i < n → c < 8 * unitSize → seg.levels i c = seg'.levels i c := by
  intro i c hi hc
  rw [← hunit] at hc
  exact (Segment.level_append happend (Nat.lt_of_lt_of_le hi hn) hc).symm

namespace RunInv
section Step
variable (h : RunInv stages hz unitSize t seg) (hwired : Wired unitSize stages)
include h

theorem decoded_le : t.output.decoded ≤ seg.size := Nat.le_trans h.counts.decoded h.counts.announced

theorem registry : t.engine.registry = Builtin.registry := by
  obtain ⟨e₀, hregistry, hsound⟩ := h.sound
  exact (Host.registry_of_reaches hsound.reaches).trans hregistry

include hwired

/-- The engine takes the samples that it is given next in full, or it breaks down and reports nothing. -/
theorem answer (hw : t.worker = some w) {stop : Nat} {sub : Submission} {e : Host Builtin}
    (ht : Stack.Takes t seg w stop sub e) :
    (sub.reported = [] ∧ ∃ f, sub.outcome = .error (.fault f)) ∨
      sub.outcome = .ok () ∧
        marksOf stages hz seg.levels stop = marksOf stages hz seg.levels t.output.decoded ++ sub.reported ∧
        ∃ s, openChain stages hz = some s ∧ e.session = some (s.fedTo seg.levels stop) := by
  obtain ⟨-, -, hphase⟩ := h.worker w hw
  have hcounts := h.counts.phase w hw
  cases ht with
  | held hp =>
    rw [hp] at hphase
    exact hphase.elim
  | @sent fed count _ _ _ hp hlt hstop hs =>
    rw [hp] at hphase hcounts
    obtain ⟨s, hopen, hsession⟩ := hphase
    obtain ⟨rfl, -, hcount⟩ := hcounts
    have hopened := opened_of_openChain hwired hopen
    rw [← h.unit] at hopened
    have hsize : stop ≤ seg.size :=
      hstop ▸ Nat.le_trans (Nat.min_le_right ..) (Nat.le_trans hcount h.counts.announced)
    obtain ⟨hsession', rfl⟩ := Host.session_of_send hsession hs
    rcases hopened.send hlt hsize with ⟨f, hfault⟩ | ⟨ms, htaken, hmarks⟩
    · rw [hfault]
      exact .inl ⟨rfl, f, rfl⟩
    · rw [htaken] at hsession' ⊢
      refine .inr ⟨rfl, ?_, s, hopen, hsession'⟩
      simp only [marksOf, hopen]
      exact hmarks

/-- A worker that enters has its engine open the chain of its stages. -/
theorem started {e₁ e₂ e₃ : Host Builtin} (hchain : w.stages = stages)
    (ho : Engine.openSession t.engine = (e₁, .ok ())) (hb : Stack.build e₁ none w.stages = (e₂, .ok ()))
    (hs : Engine.start (Engine.attach (Engine.setRate e₂ hz)) = (e₃, .ok ())) :
    ∃ s, openChain stages hz = some s ∧ e₃.session = some (s.fedTo seg.levels 0) := by
  rw [open_eq h.registry] at ho
  cases ho
  rw [hchain] at hb
  obtain ⟨b, hb⟩ := started_of_build hwired hb
  obtain ⟨s, hopen, hopened, -, hstart⟩ := hb hz
  rw [hstart] at hs
  cases hs
  refine ⟨s, hopen, ?_⟩
  rw [fedTo_zero hopened.next]

theorem atPhase_of_works (hw : t.worker = some w) (hworks : Stack.Works seg t w t') {w' : Worker}
    (hw' : t'.worker = some w') : AtPhase stages hz t' seg w'.phase := by
  obtain ⟨hchain, hrate, hphase⟩ := h.worker w hw
  have habsorbed : ∀ {stop count : Nat} {sub : Submission} {e : Host Builtin}, Stack.Takes t seg w stop sub e →
      Stack.Absorbs { t with engine := e } w stop count sub t' → AtPhase stages hz t' seg w'.phase := by
    intro stop count sub e ht ha
    cases ha with
    | misfiled | broken | refused =>
      cases hw'
      trivial
    | taken hs hok =>
      cases hw'
      rcases h.answer hwired hw ht with ⟨-, f, hf⟩ | ⟨-, -, hsession⟩
      · cases hok.symm.trans hf
      · exact hsession
  cases hworks with
  | turnedAway | closed =>
    rw [Stack.worker_conclude] at hw'
    cases hw'
    trivial
  | unbuilt | overflow | stopped | done =>
    cases hw'
    trivial
  | opened hp ho hb hs =>
    cases hw'
    rw [hrate] at hs
    exact h.started hwired hchain ho hb hs
  | caughtUp hp | roused hp =>
    cases hw'
    rw [hp] at hphase
    exact hphase
  | held hp hi hlt hstop hs hsum hheld =>
    rw [Host.held_of_send hs] at hheld
    cases hheld
  | sent hp hi hlt hstop hs ha => exact habsorbed (.sent hp hlt hstop hs) ha
  | released hp ha => exact habsorbed (.held hp) ha

theorem filed_of_works (hw : t.worker = some w) (hworks : Stack.Works seg t w t') :
    Files (blank stages) (marksOf stages hz seg.levels t'.output.decoded) t'.output := by
  rcases Stack.output_of_works hw hworks with ⟨-, err, houtput⟩ | ⟨stop, count, sub, e, -, ht, ha⟩
  · rw [houtput]
    exact h.filed.congr ⟨rfl, rfl⟩
  -- an engine of the library's decoders is orderly, so the stack takes whatever it reports
  obtain ⟨e₀, hregistry, hsound⟩ := h.sound
  obtain ⟨ms, hlive⟩ := hsound.live w hw (Stack.isOver_of_works hworks)
  obtain ⟨o, b, log, hstore, -⟩ := Stack.stores_of_takes hlive (Host.orderly hregistry stages) hw ht
  have hstored : Files t.output sub.reported o := ⟨t.broadcast, [], by rw [hstore]; exact .refl o, by rw [hstore]⟩
  have hdecoded : o.decoded = t.output.decoded := by
    have hkept := (storeAll_keeps sub.reported t.output t.broadcast []).1
    rwa [hstore] at hkept
  have hall := h.filed.append hstored
  rcases Stack.output_of_absorbs ha hstore with ⟨⟨f, hf⟩, houtput⟩ | ⟨hok, houtput⟩ <;> rw [houtput]
  · rcases h.answer hwired hw ht with ⟨hnone, -⟩ | ⟨hok, -⟩
    · rw [hnone, List.append_nil] at hall
      rwa [hdecoded]
    · cases hok.symm.trans hf
  · rcases h.answer hwired hw ht with ⟨-, f, hf⟩ | ⟨-, hmarks, -⟩
    · cases hok.symm.trans hf
    · rw [← hmarks] at hall
      exact hall.congr ⟨rfl, rfl⟩

/-- The segment may grow: the samples below those decoded stay. -/
theorem append {units : Bytes} (happend : seg.append units = .ok seg') : RunInv stages hz unitSize t seg' := by
  obtain ⟨e₀, hregistry, hsound⟩ := h.sound
  have hlevels := levels_append h.unit happend h.decoded_le
  have hunit := (Segment.size_append happend).1
  refine ⟨hunit.trans h.unit, (h.counts.proceeds (.append happend)).1,
    ⟨e₀, hregistry, hsound.proceeds (Host.orderly hregistry stages) (.append happend)⟩, fun w hw => ?_, ?_⟩
  · obtain ⟨hchain, hrate, hphase⟩ := h.worker w hw
    refine ⟨hchain, hrate, ?_⟩
    have hcounts := h.counts.phase w hw
    -- the engine was fed samples that the segment had before
    have hfed : ∀ n, t.output.decoded = n → (∃ s, openChain stages hz = some s ∧
        t.engine.session = some (s.fedTo seg.levels n)) → ∃ s, openChain stages hz = some s ∧
          t.engine.session = some (s.fedTo seg'.levels n) := by
      rintro n rfl ⟨s, hopen, hsession⟩
      rw [(opened_of_openChain hwired hopen).fedTo_congr hlevels] at hsession
      exact ⟨s, hopen, hsession⟩
    cases hp : w.phase with
    | feeding fed count =>
      rw [hp] at hphase hcounts
      exact hfed fed hcounts.1 hphase
    | waiting fed =>
      rw [hp] at hphase hcounts
      exact hfed fed hcounts hphase
    | held =>
      rw [hp] at hphase
      exact hphase.elim
    | queued | closing | ended | faulted => trivial
  · rw [← marksOf_congr hwired hz hlevels]
    exact h.filed

/-- Whatever happens keeps the invariant. -/
theorem proceeds (hp : Stack.Proceeds (t, seg) (t', seg')) : RunInv stages hz unitSize t' seg' := by
  obtain ⟨e₀, hregistry, hsound⟩ := h.sound
  have hcounts' := (h.counts.proceeds hp).1
  have hsound' := hsound.proceeds (Host.orderly hregistry stages) hp
  rcases Stack.proceeds_cases hp with ⟨rfl, w, hw, hworks, -⟩ | hapart
  · refine ⟨h.unit, hcounts', ⟨e₀, hregistry, hsound'⟩, fun w' hw' => ?_, h.filed_of_works hwired hw hworks⟩
    obtain ⟨hchain, hrate, -⟩ := h.worker w hw
    have hphase := h.atPhase_of_works hwired hw hworks hw'
    obtain ⟨-, p, hkept⟩ := Stack.keeps_of_works hworks
    cases hkept.symm.trans hw'
    exact ⟨hchain, hrate, hphase⟩
  · have hgrown : RunInv stages hz unitSize t seg' := by
      rcases hapart.segment with rfl | ⟨units, happend⟩
      · exact h
      · exact h.append hwired happend
    have houtput : t'.output = t.output := hapart.output
    refine ⟨hgrown.unit, hcounts', ⟨e₀, hregistry, hsound'⟩, fun w hw => ?_, houtput ▸ hgrown.filed⟩
    obtain ⟨hchain, hrate, hphase⟩ := hgrown.worker w (hapart.stays hw)
    exact ⟨hchain, hrate, hphase.congr hapart.engine⟩

end Step

theorem run {p q : Stack (Host Builtin) × Segment} (h : RunInv stages hz unitSize p.1 p.2)
    (hwired : Wired unitSize stages) (hrun : Relation.ReflTransGen Stack.Proceeds p q) :
    RunInv stages hz unitSize q.1 q.2 := by
  induction hrun with
  | refl => exact h
  | tail _ hstep ih => exact ih.proceeds hwired hstep

end RunInv

theorem inv_launch {s : Stack (Host Builtin)} (hregistry : s.engine.registry = Builtin.registry)
    (hcomplete : s.stages.all Stage.isComplete = true) (number : Nat) (seg : Segment) :
    ∃ hz, RunInv s.stages hz seg.unitSize (s.launch (some (number, seg))).1 seg := by
  have hcounts := Stack.Counts.launch hcomplete number seg
  have hsound : Stack.Sound s.engine s.stages (s.launch (some (number, seg))).1 seg :=
    Stack.sound_launch .refl hcomplete number seg
  have hholds := holds_launch hcomplete (some (number, seg))
  obtain ⟨i, o, rate, heq, -⟩ := Stack.exists_launch s hcomplete number seg
  rw [heq] at hcounts hsound hholds ⊢
  refine ⟨rate.toUInt64.toNat, rfl, hcounts, ⟨s.engine, hregistry, hsound⟩, fun w hw => ?_, ?_⟩
  · cases hw
    exact ⟨rfl, rfl, trivial⟩
  · -- nothing is decoded yet, and nothing is stored
    have hnone : marksOf s.stages rate.toUInt64.toNat seg.levels 0 = [] := by
      unfold marksOf
      cases openChain s.stages rate.toUInt64.toNat with
      | none => rfl
      | some s => exact marksIn_zero
    have hzero : o.decoded = 0 := hcounts.phase _ rfl
    show Files _ (marksOf _ _ _ o.decoded) o
    rw [hzero, hnone]
    refine (Files.nil _).congr ⟨hholds.table.symm, ?_⟩
    rw [hholds.tracks]
    rfl

end Run

/-- A run of stages on units of a size, at some time after it was launched. -/
def RunOf (stages : List Stage) (unitSize : Nat) (t : Stack (Host Builtin)) (seg : Segment) : Prop :=
  ∃ (s : Stack (Host Builtin)) (number : Nat) (first : Segment),
    s.stages = stages ∧ first.unitSize = unitSize ∧ s.engine.registry = Builtin.registry ∧
      stages.all Stage.isComplete = true ∧
      Relation.ReflTransGen Stack.Proceeds ((s.launch (some (number, first))).1, first) (t, seg)

section RunOf
variable {stages : List Stage} {unitSize : Nat} {t : Stack (Host Builtin)} {seg : Segment}

theorem RunOf.inv (h : RunOf stages unitSize t seg) (hwired : Wired unitSize stages) :
    ∃ hz, RunInv stages hz unitSize t seg := by
  obtain ⟨s, number, first, rfl, rfl, hregistry, hcomplete, hrun⟩ := h
  obtain ⟨hz, hlaunch⟩ := inv_launch hregistry hcomplete number first
  exact ⟨hz, hlaunch.run hwired hrun⟩

/-- The rows of a run hold what a run that is given the samples decoded as one chunk stores, at whatever
rate, and also when its worker has broken down. So runs that have decoded the same samples hold the same, however
these arrived and were cut. -/
theorem tracks_eq_offline (hwired : Wired unitSize stages) (h : RunOf stages unitSize t seg) :
    t.output.decoded ≤ seg.size ∧
      (∀ hz, t.output.tracks =
        (offline stages hz ⟨0, seg.samples 0 t.output.decoded, seg.unitSize⟩).tracks) ∧
      ∀ t' seg', RunOf stages unitSize t' seg' → t'.output.decoded = t.output.decoded →
        seg'.samples 0 t.output.decoded = seg.samples 0 t.output.decoded →
        t'.output.tracks = t.output.tracks := by
  have hoffline : ∀ {t : Stack (Host Builtin)} {seg : Segment}, RunOf stages unitSize t seg →
      t.output.decoded ≤ seg.size ∧ ∀ hz, t.output.tracks =
        (offline stages hz ⟨0, seg.samples 0 t.output.decoded, unitSize⟩).tracks := by
    intro t seg h
    obtain ⟨hz', hinv⟩ := h.inv hwired
    refine ⟨hinv.decoded_le, fun hz => ?_⟩
    have hfiles := hinv.filed
    rw [marksOf_rate hwired hz' hz] at hfiles
    rw [← hinv.unit] at hwired ⊢
    exact (offline_rows hwired hz hinv.decoded_le hfiles).tracks.symm
  obtain ⟨hz, hinv⟩ := h.inv hwired
  obtain ⟨hdecoded, htracks⟩ := hoffline h
  refine ⟨hdecoded, fun hz => hinv.unit ▸ htracks hz, fun t' seg' h' hdecoded' hsamples => ?_⟩
  rw [(hoffline h').2 hz, htracks hz, hdecoded', hsamples]

/-- A run with one sample per chunk, on a segment that grows while it is decoded. -/
theorem tracks_eq_offline_growing :
    let stage : Stage := ⟨Spi.profile, [("clk", ⟨"clk", 0, none⟩), ("mosi", ⟨"mosi", 1, none⟩)],
      [("wordsize", .int 2)], true⟩
    ∃ t seg, Wired 1 [stage] ∧ RunOf [stage] 1 t seg ∧ t.output.decoded = 4 ∧ t.output.stored = 1 ∧
      t.output.tracks = (offline [stage] 0 ⟨0, #[0, 3, 0, 1], 1⟩).tracks := by
  intro stage
  let seg : Segment := ⟨1, 0.0, 0.0, #[0, 3], by decide⟩
  let seg' : Segment := ⟨1, 0.0, 0.0, #[0, 3, 0, 1], by decide⟩
  let s : Stack (Host Builtin) :=
    .create [stage] (.ofRegistry Builtin.registry) (Config.standard.withChunkBytes 0) .running .shared
  let t := (s.launch (some (0, seg))).1
  let w : Worker := ⟨[stage], 0, if seg.rate == 0.0 then 1.0 else seg.rate, s.config, .queued⟩
  let t' := (((t.enter w seg).1.settle seg).1.announce seg'.size).settle seg'
  have hworker : t.worker = some w := rfl
  have happend : seg.append #[0, 1] = .ok seg' := Segment.append_eq_ok.2 ⟨by decide, rfl⟩
  have hrun : Relation.ReflTransGen Stack.Proceeds (t, seg) (t'.1, seg') :=
    .head (.enter hworker rfl) ((Stack.proceeds_settle _ seg).trans
      (.head (.append happend) (.head .announce (Stack.proceeds_settle _ seg'))))
  have hwired : Wired 1 [stage] := by
    unfold Wired
    decide
  have hrunOf : RunOf [stage] 1 t'.1 seg' := ⟨s, 0, seg, rfl, rfl, rfl, by decide, hrun⟩
  have hdecoded : t'.1.output.decoded = 4 := by decide +kernel
  have hstored : t'.1.output.stored = 1 := by decide +kernel
  have hsamples : seg'.samples 0 4 = #[0, 3, 0, 1] := by decide +kernel
  clear_value t'
  have htracks := (tracks_eq_offline hwired hrunOf).2.1 0
  rw [hdecoded, hsamples] at htracks
  exact ⟨t'.1, seg', hwired, hrunOf, hdecoded, hstored, htracks⟩

end RunOf

end LogicDecode
