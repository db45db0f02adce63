import LogicDecode.Proofs.Courses
import LogicDecode.Proofs.Cuts
import LogicDecode.Proofs.Storing
import LogicDecode.Proofs.WorkerMoves
import LogicDecode.Registry

/-!
# Progress of a run

While a run goes on, it has decoded no more than has been announced, and no more is announced than there is
(`Counts`). Neither number ever becomes smaller, and each move of the worker lowers its potential. When the
worker decides of its own accord that the run is over, all that was announced is decoded (`RunsOut`). The run ends
later than that, and samples may be announced in between (`AnnouncesMore`): no worker takes them up any more. So it is
not all that is announced at the end that is decoded, but all that was when the worker ran out of samples
(`counts_of_run`, `counts_of_run_announced_late`).
-/

namespace LogicDecode
namespace Demand

theorem eq_of_next? {d : Demand} {n : Nat} (hn : d.next? = some n) : n = d.count := by
  unfold next? at hn
  dsimp only at hn
  split at hn
  · exact (Option.some.inj hn).symm
  · cases hn

end Demand

namespace Stack
variable {ε : Type}

/-- What the phase of a worker says about how much has been decoded. -/
def CountsAt (t : Stack ε) : Phase → Prop
  | .queued => t.output.decoded = 0
  | .feeding fed count => t.output.decoded = fed ∧ fed ≤ count ∧ count ≤ t.input.count
  | .held stop count _ => t.output.decoded ≤ stop ∧ stop ≤ count ∧ count ≤ t.input.count
  | .waiting fed => t.output.decoded = fed
  | .closing _ | .ended | .faulted => True

/-- The samples decoded are among those announced, and these among those that there are. -/
structure Counts (t : Stack ε) (seg : Segment) : Prop where
  decoded : t.output.decoded ≤ t.input.count
  announced : t.input.count ≤ seg.size
  phase : ∀ w, t.worker = some w → t.CountsAt w.phase

namespace Counts
variable {t t' : Stack ε} {seg seg' : Segment} {w : Worker}

theorem told (h : Counts t seg) (ho : t'.output = t.output) (hw : t'.worker = t.worker)
    (hcount : t.input.count ≤ t'.input.count) (hsize : t'.input.count ≤ seg'.size) :
    Counts t' seg' where
  decoded := ho ▸ Nat.le_trans h.decoded hcount
  announced := hsize
  phase w hw' := by
    have hphase := h.phase w (hw ▸ hw')
    cases hp : w.phase with
    | feeding fed count =>
      rw [hp] at hphase
      exact ⟨ho ▸ hphase.1, hphase.2.1, Nat.le_trans hphase.2.2 hcount⟩
    | held stop count sub =>
      rw [hp] at hphase
      exact ⟨ho ▸ hphase.1, hphase.2.1, Nat.le_trans hphase.2.2 hcount⟩
    | queued =>
      rw [hp] at hphase
      exact (congrArg Output.decoded ho).trans hphase
    | waiting fed =>
      rw [hp] at hphase
      exact (congrArg Output.decoded ho).trans hphase
    | closing | ended | faulted => trivial

theorem moved {p : Phase} (hdecoded : t'.output.decoded ≤ t'.input.count) (hcount : t'.input.count ≤ seg.size)
    (hphase : t'.CountsAt p) : Counts (t'.setPhase w p) seg where
  decoded := hdecoded
  announced := hcount
  phase w' hw' := by
    cases hw'
    cases p <;> exact hphase

variable [Engine ε]

theorem absorbs {stop count : Nat} {sub : Submission} (h : Counts t seg) (hle : t.output.decoded ≤ stop)
    (hstop : stop ≤ count) (hcount : count ≤ t.input.count) (ha : Absorbs t w stop count sub t') :
    Counts t' seg ∧ t.output.decoded ≤ t'.output.decoded ∧ t.input.count ≤ t'.input.count := by
  have hkept : ∀ {o : Output} {b : Broadcast} {log : List LogEntry} {fault : Option Fault},
      storeAll sub.reported t.output t.broadcast [] = (o, b, log, fault) → o.decoded = t.output.decoded := by
    intro o b log fault hs
    have := (storeAll_keeps sub.reported t.output t.broadcast []).1
    rwa [hs] at this
  cases ha with
  | misfiled hs | broken hs | refused hs =>
    have hdecoded := hkept hs
    refine ⟨moved ?_ h.announced trivial, Nat.le_of_eq hdecoded.symm, Nat.le_refl _⟩
    exact hdecoded ▸ h.decoded
  | taken hs =>
    exact ⟨moved (Nat.le_trans hstop hcount) h.announced ⟨rfl, hstop, hcount⟩, hle, Nat.le_refl _⟩

theorem works (h : Counts t seg) (hw : t.worker = some w) (hworks : Works seg t w t') :
    Counts t' seg ∧ t.output.decoded ≤ t'.output.decoded ∧ t.input.count ≤ t'.input.count := by
  have hphase := h.phase w hw
  cases hworks with
  | @turnedAway e n c hp hn =>
    have hle : t.input.count ≤ n ∧ n ≤ seg.size := by
      rcases hn with rfl | rfl
      · exact ⟨Nat.le_refl _, h.announced⟩
      · exact ⟨h.announced, Nat.le_refl _⟩
    obtain ⟨b, hb⟩ := conclude_eq { t with engine := e, input := { t.input with count := n } } w (some c)
    rw [hb]
    refine ⟨⟨Nat.le_trans h.decoded hle.1, hle.2, fun w' hw' => ?_⟩, Nat.le_refl _, hle.1⟩
    cases hw'
    trivial
  | unbuilt => exact ⟨moved h.decoded h.announced trivial, Nat.le_refl _, Nat.le_refl _⟩
  | opened hp ho hb hs =>
    rw [hp] at hphase
    have hle : t.output.decoded ≤ seg.size := Nat.le_trans h.decoded h.announced
    exact ⟨moved hle (Nat.le_refl _) ⟨hphase, Nat.zero_le _, Nat.le_refl _⟩, Nat.le_refl _, h.announced⟩
  | stopped hp hi => exact ⟨moved h.decoded h.announced trivial, Nat.le_refl _, Nat.le_refl _⟩
  | caughtUp hp hi hle =>
    rw [hp] at hphase
    exact ⟨moved h.decoded h.announced hphase.1, Nat.le_refl _, Nat.le_refl _⟩
  | overflow => exact ⟨moved h.decoded h.announced trivial, Nat.le_refl _, Nat.le_refl _⟩
  | held hp hi hlt hstop hs =>
    rw [hp] at hphase
    obtain ⟨hdecoded, -, hcount⟩ := hphase
    have hle := hstop ▸ Nat.min_le_right ..
    exact ⟨moved h.decoded h.announced ⟨by show t.output.decoded ≤ _; omega, by omega, hcount⟩,
      Nat.le_refl _, Nat.le_refl _⟩
  | @sent fed count stop e sub _ hp hi hlt hstop hs ha =>
    rw [hp] at hphase
    obtain ⟨hdecoded, -, hcount⟩ := hphase
    have h' : Counts { t with engine := e } seg := h.told rfl rfl (Nat.le_refl _) h.announced
    exact h'.absorbs (by show t.output.decoded ≤ stop; omega) (by omega) hcount ha
  | released hp ha =>
    rw [hp] at hphase
    exact h.absorbs hphase.1 hphase.2.1 hphase.2.2 ha
  | @roused fed count hp hwaits hn =>
    rw [hp] at hphase
    have hcount : count = t.input.count := Demand.eq_of_next? hn
    have hlt : fed < count := Demand.fed_lt_of_next? hwaits hn
    exact ⟨moved h.decoded h.announced ⟨hphase, Nat.le_of_lt hlt, Nat.le_of_eq hcount⟩, Nat.le_refl _, Nat.le_refl _⟩
  | done => exact ⟨moved h.decoded h.announced trivial, Nat.le_refl _, Nat.le_refl _⟩
  | @closed error hp =>
    obtain ⟨b, hb⟩ := conclude_eq { t with
      broadcast := t.broadcast.send .marks, engine := Engine.closeSession t.engine } w error
    rw [hb]
    refine ⟨⟨h.decoded, h.announced, fun w' hw' => ?_⟩, Nat.le_refl _, Nat.le_refl _⟩
    cases hw'
    trivial

/-- Whatever happens keeps the order of the counts, and makes none of them smaller. -/
theorem proceeds (h : Counts t seg) (hp : Proceeds (t, seg) (t', seg')) :
    Counts t' seg' ∧ t.output.decoded ≤ t'.output.decoded ∧ t.input.count ≤ t'.input.count := by
  cases hp with
  | append happend =>
    have hsize := Nat.le_trans h.announced (Segment.size_append happend).2
    exact ⟨h.told rfl rfl (Nat.le_refl _) hsize, Nat.le_refl _, Nat.le_refl _⟩
  | announce =>
    unfold announce
    split
    · exact ⟨h.told rfl rfl h.announced (Nat.le_refl _), Nat.le_refl _, h.announced⟩
    · exact ⟨h, Nat.le_refl _, Nat.le_refl _⟩
  | complete =>
    unfold complete
    split
    · exact ⟨h.told rfl rfl (Nat.le_refl _) h.announced, Nat.le_refl _, Nat.le_refl _⟩
    · exact ⟨h, Nat.le_refl _, Nat.le_refl _⟩
  | capture | interrupt | subscribers =>
    exact ⟨h.told rfl rfl (Nat.le_refl _) h.announced, Nat.le_refl _, Nat.le_refl _⟩
  | enter hw hp => exact h.works hw (works_of_enter hp)
  | step hstep =>
    obtain ⟨w, hw, hworks⟩ := works_of_step hstep
    exact h.works hw hworks
  | resume hw hp => exact h.works hw (works_of_resume hw hp)
  | join hw ho =>
    unfold join
    rw [hw]
    exact ⟨⟨h.decoded, h.announced, fun w' hw' => nomatch hw'⟩, Nat.le_refl _, Nat.le_refl _⟩

theorem run {p q : Stack ε × Segment} (h : Counts p.1 p.2) (hrun : Relation.ReflTransGen Proceeds p q) :
    Counts q.1 q.2 := by
  induction hrun with
  | refl => exact h
  | tail _ hstep ih => exact (ih.proceeds hstep).1

omit [Engine ε] in
theorem launch {s : Stack ε} (hcomplete : s.stages.all Stage.isComplete = true) (number : Nat) (seg : Segment) :
    Counts (s.launch (some (number, seg))).1 seg := by
  unfold Stack.launch
  dsimp only [Stack.clear]
  rw [hcomplete, if_neg (by decide)]
  refine ⟨Nat.le_refl _, Nat.zero_le _, fun w hw => ?_⟩
  cases hw
  rfl

end Counts

section Ends
variable [Engine ε] {t t' : Stack ε} {seg : Segment} {w : Worker} {log : List LogEntry}

/-- Every move of a worker lowers its potential. -/
theorem potential_lt (h : t.step? seg = some (t', log)) : t'.potential < t.potential := by
  obtain ⟨w, hw, hworks⟩ := works_of_step h
  have habsorbed : ∀ {u u' : Stack ε} {stop count : Nat} {sub : Submission}, Absorbs u w stop count sub u' →
      u'.potential ≤ 4 * (max count u.input.count - stop) + 4 := by
    intro u u' stop count sub ha
    cases ha with
    | misfiled | broken => exact Nat.zero_le _
    | refused =>
      show 1 ≤ _
      omega
    | taken =>
      show 4 * (max count u.input.count - stop) + (if stop < count then 2 else 4) ≤ _
      split <;> omega
  cases hworks with
  | turnedAway hp | unbuilt hp | opened hp | released hp => simp [step?, hw, hp] at h
  | stopped hp =>
    simp only [potential, hw, hp, setPhase]
    split <;> omega
  | caughtUp hp hi hle =>
    simp only [potential, hw, hp, setPhase]
    split <;> omega
  | overflow hp =>
    simp only [potential, hw, hp, setPhase, crash]
    split <;> omega
  | held hp =>
    simp only [potential, hw, hp, setPhase]
    split <;> omega
  | @sent fed count stop e sub _ hp hi hlt hstop hs ha =>
    have hle : stop ≤ count := hstop ▸ Nat.min_le_right ..
    have hlower := habsorbed ha
    have hpotential : t.potential = 4 * (max count t.input.count - fed) + 2 := by
      simp only [potential, hw, hp, if_pos (Nat.lt_of_lt_of_le hlt hle)]
    rw [hpotential]
    dsimp only at hlower
    omega
  | @roused fed count hp hwaits hn =>
    have hcount : count = t.input.count := Demand.eq_of_next? hn
    have hlt : fed < count := Demand.fed_lt_of_next? hwaits hn
    simp only [potential, hw, hp, setPhase, if_pos hlt]
    omega
  | done hp =>
    simp only [potential, hw, hp, setPhase]
    omega
  | @closed error hp =>
    simp only [potential, hw, hp, worker_conclude]
    omega

/-- A worker that settles moves as long as it can. -/
theorem step?_settle (t : Stack ε) (seg : Segment) : (t.settle seg).1.step? seg = none := by
  have hmoves : ∀ (n : Nat) (t : Stack ε) (log : List LogEntry), t.potential ≤ n →
      (Stack.moves seg n (t, log)).1.step? seg = none := by
    intro n
    induction n with
    | zero =>
      intro t log hn
      cases hstep : t.step? seg with
      | none => exact hstep
      | some next => exact absurd (potential_lt hstep) (by omega)
    | succ n ih =>
      intro t log hn
      unfold moves
      split
      · assumption
      · rename_i t' more hstep
        have := potential_lt hstep
        exact ih t' _ (by omega)
  exact hmoves _ t [] (Nat.le_refl _)

end Ends

section Launched
variable [Engine ε] {s t : Stack ε} {number : Nat} {first seg : Segment}

end Launched
end Stack
end LogicDecode
