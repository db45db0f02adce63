import LogicDecode.Proofs.Opening
import LogicDecode.Proofs.Storing

/-!
# Feeding a segment to a chain of decoders

A session that has been fed the samples below `n` is `Session.fedTo level n`, where the levels are those
of the segment, which may have grown since. A chunk takes it on to the end of the chunk
(`Opened.send`), so `offline`, a fresh run with one chunk, stores what all chunks together report.
-/

namespace LogicDecode

/-- The levels of all channels at all samples. -/
def Segment.levels (s : Segment) (i c : Nat) : Bool := unitBit s.data s.unitSize i c

/-- The session when it has been fed the samples below `n`. -/
def Session.fedTo (s : Session Builtin) (level : Nat → Nat → Bool) (n : Nat) : Session Builtin :=
  { s with instances := swept level n s.instances, next := if n = 0 then none else some n }

/-- The output of a run that has stored nothing. -/
def blank (stages : List Stage) : Output :=
  (Output.fresh Config.standard.notifyPeriod).prepare (.ofProfiles (stages.map (·.profile)))
    Config.standard.notifyPeriod

/-- The output of a fresh run that is given its samples as one chunk. -/
def offline (stages : List Stage) (hz : Nat) (c : Chunk) : Output :=
  match openChain stages hz with
  | none => blank stages
  | some s => (Stack.storeAll ((Flow.ofInstances s.instances).run c).reported.toList (blank stages) .empty []).1

/-- The marks that a run has reported when it has been fed the samples below `n`. -/
def marksOf (stages : List Stage) (hz : Nat) (level : Nat → Nat → Bool) (n : Nat) : List Mark :=
  match openChain stages hz with
  | none => []
  | some s => marksIn level n s.instances

section Feeding
variable {s : Session Builtin} {seg seg' : Segment} {n stop : Nat}

theorem fedTo_zero (h : s.next = none) (level : Nat → Nat → Bool) : s.fedTo level 0 = s := by
  unfold Session.fedTo
  rw [swept_zero, if_pos rfl, ← h]

theorem Opened.fedTo_congr {unitSize : Nat} (h : Opened unitSize s) {level level' : Nat → Nat → Bool}
    (hlevels : ∀ i c, i < n → c < 8 * unitSize → level i c = level' i c) : s.fedTo level n = s.fedTo level' n := by
  rw [Session.fedTo, Session.fedTo, (swept_congr h.inUnit hlevels).1]

theorem Opened.run (h : Opened seg.unitSize s) (hn : n ≤ stop) (hstop : stop ≤ seg.size) :
    ∃ ms, (Flow.ofInstances (swept seg.levels n s.instances)).run ⟨n, seg.samples n stop, seg.unitSize⟩ =
        ⟨swept seg.levels stop s.instances, ms.toArray, none⟩ ∧
      marksIn seg.levels stop s.instances = marksIn seg.levels n s.instances ++ ms := by
  have hsize : (Chunk.mk n (seg.samples n stop) seg.unitSize).size = stop - n := by
    rw [Chunk.size, Segment.size_samples hstop hn, Nat.mul_div_cancel _ seg.unitSize_pos]
  have hend : (Chunk.mk n (seg.samples n stop) seg.unitSize).stop = stop := by
    rw [Chunk.stop, hsize]
    exact Nat.add_sub_cancel' hn
  have hlevel : ∀ i ch, n ≤ i → i < n + (Chunk.mk n (seg.samples n stop) seg.unitSize).size →
      ch < 8 * seg.unitSize →
      (Chunk.mk n (seg.samples n stop) seg.unitSize).level i ch = seg.levels i ch := by
    intro i ch h1 h2 hch
    rw [hsize] at h2
    exact Segment.level_samples hstop h1 (by omega) hch
  have hrun := Flow.run_swept (c := ⟨n, seg.samples n stop, seg.unitSize⟩) h.chained h.inUnit hlevel
  rw [hend] at hrun
  exact hrun

/-- A started session accepts samples that begin where the last ones ended, if their number is right. -/
theorem accept_eq {σ : Type} {s : Session σ} (hs : s.started = true) (hnext : s.next = none ∨ s.next = some n)
    (stop size unitSize : Nat) :
    s.accept n stop size unitSize = Outcome.check (checkedMul (stop - n) unitSize) >>= fun expected =>
      if stop < n || unitSize = 0 || size ≠ expected then .error (.refused (.chunkSize expected size))
      else .ok () := by
  unfold Session.accept
  rw [hs]
  rcases hnext with hnext | hnext
  · rw [hnext]; rfl
  · rw [hnext]
    simp only [ne_eq, not_true_eq_false, if_false]
    rfl

theorem accept_of_size {σ : Type} {s : Session σ} (hs : s.started = true)
    (hnext : s.next = none ∨ s.next = some n) (hn : n ≤ stop) {unitSize size : Nat} (hpos : 0 < unitSize)
    (hsize : size = (stop - n) * unitSize) (hbound : (stop - n) * unitSize < wordBound) :
    s.accept n stop size unitSize = .ok () := by
  have hmul : checkedMul (stop - n) unitSize = .ok size := checkedMul_eq_ok.2 ⟨hsize, hbound⟩
  rw [accept_eq hs hnext, hmul]
  refine if_neg ?_
  simp only [Bool.or_eq_true, decide_eq_true_eq, ne_eq, not_true_eq_false, or_false]
  omega

/-- A session takes a chunk in full, unless its size does not fit in 64 bits. -/
theorem Opened.send (h : Opened seg.unitSize s) (hn : n < stop) (hstop : stop ≤ seg.size) :
    (∃ f, (s.fedTo seg.levels n).send n stop (seg.samples n stop) seg.unitSize =
        ⟨s.fedTo seg.levels n, [], .error (.fault f)⟩) ∨
      ∃ ms, (s.fedTo seg.levels n).send n stop (seg.samples n stop) seg.unitSize =
          ⟨s.fedTo seg.levels stop, ms, .ok ()⟩ ∧
        marksIn seg.levels stop s.instances = marksIn seg.levels n s.instances ++ ms := by
  have hnext : (s.fedTo seg.levels n).next = none ∨ (s.fedTo seg.levels n).next = some n := by
    by_cases hzero : n = 0
    · exact .inl (if_pos hzero)
    · exact .inr (if_neg hzero)
  have hstarted : (s.fedTo seg.levels n).started = true := h.started
  have haccept := accept_eq hstarted hnext stop (seg.samples n stop).size seg.unitSize
  cases hmul : checkedMul (stop - n) seg.unitSize with
  | error f =>
    rw [hmul] at haccept
    refine .inl ⟨f, ?_⟩
    unfold Session.send
    rw [haccept]
    rfl
  | ok k =>
    obtain ⟨rfl, hbound⟩ := checkedMul_eq_ok.1 hmul
    have hsize := Segment.size_samples hstop (Nat.le_of_lt hn)
    have haccept := accept_of_size hstarted hnext (Nat.le_of_lt hn) seg.unitSize_pos hsize hbound
    obtain ⟨ms, hrun, hmarks⟩ := h.run (Nat.le_of_lt hn) hstop
    refine .inr ⟨ms, ?_, hmarks⟩
    have hrun : (Flow.ofInstances (s.fedTo seg.levels n).instances).run
        ⟨n, seg.samples n stop, seg.unitSize⟩ = ⟨swept seg.levels stop s.instances, ms.toArray, none⟩ := hrun
    have hreporting : (s.fedTo seg.levels n).reporting = true := h.reporting
    have hstop : stop ≠ 0 := by omega
    unfold Session.send
    rw [haccept]
    simp only [hrun, hreporting, if_true]
    simp only [Session.fedTo, if_neg hstop, h.reporting]

end Feeding

section Offline
variable {unitSize : Nat} {stages : List Stage}

theorem marksOf_congr (hwired : Wired unitSize stages) (hz : Nat) {level level' : Nat → Nat → Bool} {n : Nat}
    (h : ∀ i c, i < n → c < 8 * unitSize → level i c = level' i c) :
    marksOf stages hz level n = marksOf stages hz level' n := by
  unfold marksOf
  cases hopen : openChain stages hz with
  | none => rfl
  | some s => exact (swept_congr (opened_of_openChain hwired hopen).inUnit h).2

theorem marksOf_rate (hwired : Wired unitSize stages) (hz hz' : Nat) (level : Nat → Nat → Bool) (n : Nat) :
    marksOf stages hz level n = marksOf stages hz' level n := by
  have hinstances := instances_openChain hwired hz hz'
  unfold marksOf
  cases hopen : openChain stages hz <;> cases hopen' : openChain stages hz'
  · rfl
  · rw [hopen, hopen'] at hinstances; cases hinstances
  · rw [hopen, hopen'] at hinstances; cases hinstances
  · rw [hopen, hopen'] at hinstances
    simp only [Option.some.inj hinstances]

theorem offline_rows {seg : Segment} (hwired : Wired seg.unitSize stages) (hz : Nat) {n : Nat}
    (hn : n ≤ seg.size) {o : Output} (h : Files (blank stages) (marksOf stages hz seg.levels n) o) :
    SameRows (offline stages hz ⟨0, seg.samples 0 n, seg.unitSize⟩) o := by
  unfold marksOf at h
  unfold offline
  cases hopen : openChain stages hz with
  | none =>
    rw [hopen] at h
    exact (h.sameRows .empty []).1
  | some s =>
    rw [hopen] at h
    obtain ⟨ms, hrun, hmarks⟩ := (opened_of_openChain hwired hopen).run (Nat.zero_le n) hn
    rw [swept_zero] at hrun
    rw [marksIn_zero, List.nil_append] at hmarks
    dsimp only at h ⊢
    rw [hmarks] at h
    rw [hrun]
    exact (h.sameRows .empty []).1

end Offline

end LogicDecode
