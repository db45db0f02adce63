import LogicDecode.Bench
import LogicDecode.Proofs.WorkerMoves
import LogicDecode.Registry

/-!
# Where a run finds its segment

A new run of a stack decodes the first segment behind the first assigned channel of a stage; the first stage counts
for which there is one (`Bench.firstBehind?`). Channels behind the first assigned one are not looked at. So this
is the segment behind the first channel that bears data (`Bench.scan?`) if no stage has a channel without
data before one with data.

A bench is in order (`Bench.Linked`) if the numbers in it are those of segments that it has; whatever is done with it
keeps it so.
-/

namespace LogicDecode

/-- The signals on the channels that the decoder declares, in its order. -/
def Stage.assigned (s : Stage) : List Signal := s.profile.channels.filterMap fun c => s.signal? c.id

theorem Stage.firstSignal?_eq (s : Stage) : s.firstSignal? = s.assigned.head? := List.head?_filterMap.symm

namespace Stack
variable {ε : Type} {t t' t'' : Stack ε}

/-- A stack keeps its chain and its run, however far this has come. -/
structure Continues (t t' : Stack ε) : Prop where
  keeps : Keeps t t'
  run : t'.worker.map (·.segment) = t.worker.map (·.segment)

theorem Continues.refl (t : Stack ε) : Continues t t := ⟨.refl t, rfl⟩

theorem Continues.trans (h : Continues t t') (h' : Continues t' t'') : Continues t t'' :=
  ⟨h.keeps.trans h'.keeps, h'.run.trans h.run⟩

section Moves
variable [Engine ε] {seg : Segment} {w : Worker}

theorem continues_of_works (hw : t.worker = some w) (h : Works seg t w t') : Continues t t' := by
  obtain ⟨hkeeps, p, hworker⟩ := keeps_of_works h
  exact ⟨hkeeps, by rw [hw, hworker]; rfl⟩

theorem continues_settle (t : Stack ε) (seg : Segment) : Continues t (t.settle seg).1 := by
  have hsteps := steps_settle t seg
  generalize (t.settle seg).1 = t' at hsteps ⊢
  induction hsteps with
  | refl => exact .refl t
  | tail _ hstep ih =>
    obtain ⟨log, hstep⟩ := hstep
    obtain ⟨w, hw, hworks⟩ := works_of_step hstep
    exact ih.trans (continues_of_works hw hworks)

/-- Whoever lets a worker in finds it queued, but it would go the same way from anywhere. -/
theorem continues_enter (hw : t.worker = some w) : Continues t (t.enter w seg).1 := by
  have hworks : Works seg t { w with phase := .queued } (t.enter w seg).1 := works_of_enter rfl
  obtain ⟨hkeeps, p, hworker⟩ := keeps_of_works hworks
  exact ⟨hkeeps, by rw [hw, hworker]; rfl⟩

theorem continues_resume (t : Stack ε) : Continues t t.resume.1 := by
  unfold resume
  cases hw : t.worker with
  | none => exact .refl t
  | some w =>
    dsimp only
    cases hp : w.phase with
    | held stop count sub =>
      obtain ⟨hkeeps, p, hworker⟩ := keeps_of_absorbs (absorbs t w stop count sub)
      exact ⟨hkeeps, by rw [hw, hworker]; rfl⟩
    | queued | feeding | waiting | closing | ended | faulted => exact .refl t

omit [Engine ε] in
theorem keeps_join (t : Stack ε) : Keeps t t.join.1 ∧ t.join.1.worker = none := by
  unfold join
  cases hw : t.worker with
  | none => exact ⟨.refl t, hw⟩
  | some w => exact ⟨⟨rfl, rfl, rfl, rfl⟩, rfl⟩

theorem keeps_cancel (t : Stack ε) (seg : Segment) : Keeps t (t.cancel seg).1 ∧ (t.cancel seg).1.worker = none := by
  unfold cancel
  split
  · rename_i hw
    exact ⟨.refl t, hw⟩
  · have hresume := (continues_resume { t with interrupted := true }).keeps
    have hsettle := (continues_settle ({ t with interrupted := true }.resume.1) seg).keeps
    obtain ⟨hjoin, hnone⟩ := keeps_join (({ t with interrupted := true }.resume.1.settle seg).1)
    have hall := (hresume.trans hsettle).trans hjoin
    exact ⟨⟨hall.stages, hall.lock, hall.segment, hall.table⟩, hnone⟩

end Moves
end Stack

namespace Bench
variable {ε : Type} {b b' b'' : Bench ε}

/-- The number of the first segment behind a signal. -/
def behind? (b : Bench ε) (s : Signal) : Option Nat := s.source.bind fun n => (b.sources[n]?).bind Source.first?

/-- The first segment behind the first assigned channels of stages. -/
def firstBehind? (b : Bench ε) (stages : List Stage) : Option Nat :=
  (stages.filterMap Stage.firstSignal?).findSome? b.behind?

/-- The first segment behind the assigned channels of stages. -/
def scan? (b : Bench ε) (stages : List Stage) : Option Nat := (stages.flatMap Stage.assigned).findSome? b.behind?

/-- The first assigned channels tell what all channels tell, if there is no data behind other channels of a stage
only. -/
theorem firstBehind?_eq_scan? {stages : List Stage} (h : ∀ stage ∈ stages,
      (∃ signal ∈ stage.assigned, (b.behind? signal).isSome) →
        ∃ signal, stage.firstSignal? = some signal ∧ (b.behind? signal).isSome) :
    b.firstBehind? stages = b.scan? stages := by
  induction stages with
  | nil => rfl
  | cons stage rest ih =>
    have ih := ih fun stage' hstage' => h stage' (List.mem_cons_of_mem _ hstage')
    have hstage := h stage (List.mem_cons_self ..)
    unfold firstBehind? scan? at ih ⊢
    rw [List.flatMap_cons, List.findSome?_append, ← ih, List.filterMap_cons]
    rw [Stage.firstSignal?_eq] at hstage ⊢
    cases hassigned : stage.assigned with
    | nil => rfl
    | cons signal signals =>
      rw [hassigned] at hstage
      rw [List.head?_cons]
      dsimp only
      rw [List.findSome?_cons, List.findSome?_cons]
      cases hbehind : b.behind? signal with
      | some n => rfl
      | none =>
        -- the first channel has no data, so no channel of the stage has
        have hnone : signals.findSome? b.behind? = none := by
          refine List.findSome?_eq_none_iff.2 fun signal' hsignal' => ?_
          cases hbehind' : b.behind? signal' with
          | none => rfl
          | some n =>
            obtain ⟨first, hfirst, hdata⟩ := hstage ⟨signal', List.mem_cons_of_mem _ hsignal', by rw [hbehind']; rfl⟩
            cases hfirst
            rw [hbehind] at hdata
            cases hdata
        rw [hnone]
        rfl

/-- The numbers in a bench are those of segments that it has. -/
structure Linked (b : Bench ε) : Prop where
  sources : ∀ source ∈ b.sources, ∀ n ∈ source.segments, n < b.segments.length
  workers : ∀ s ∈ b.chains, ∀ n, s.worker.map (·.segment) = some n → n < b.segments.length

theorem Linked.behind?_lt (h : Linked b) {signal : Signal} {n : Nat} (hn : b.behind? signal = some n) :
    n < b.segments.length := by
  obtain ⟨i, -, hsource⟩ := Option.bind_eq_some_iff.1 hn
  obtain ⟨source, hi, hfirst⟩ := Option.bind_eq_some_iff.1 hsource
  exact h.sources source (List.mem_of_getElem? hi) n (List.mem_of_mem_head? hfirst)

theorem Linked.find?_eq (h : Linked b) (stages : List Stage) :
    (b.find? stages).map Prod.fst = b.firstBehind? stages := by
  have hnumber : ((stages.filterMap Stage.firstSignal?).filterMap (·.source)).findSome?
      (fun n => (b.sources[n]?).bind Source.first?) = b.firstBehind? stages := by
    rw [← List.head?_filterMap, List.filterMap_filterMap, List.head?_filterMap]
    rfl
  unfold find?
  dsimp only
  rw [hnumber]
  cases hn : b.firstBehind? stages with
  | none => rfl
  | some n =>
    obtain ⟨signal, -, hsignal⟩ := List.exists_of_findSome?_eq_some hn
    have hlt := h.behind?_lt hsignal
    simp [List.getElem?_eq_getElem hlt]

/-- The stacks of a bench keep their chains and their runs. -/
structure Continues (b b' : Bench ε) : Prop where
  segments : b'.segments = b.segments
  sources : b'.sources = b.sources
  length : b'.chains.length = b.chains.length
  chains : ∀ (i : Nat) (s' : Stack ε), b'.chains[i]? = some s' →
    ∃ s, b.chains[i]? = some s ∧ Stack.Continues s s'

theorem Continues.refl (b : Bench ε) : Continues b b := ⟨rfl, rfl, rfl, fun _ s hs => ⟨s, hs, .refl s⟩⟩

theorem Continues.trans (h : Continues b b') (h' : Continues b' b'') : Continues b b'' := by
  refine ⟨h'.segments.trans h.segments, h'.sources.trans h.sources, h'.length.trans h.length, fun i s'' hs'' => ?_⟩
  obtain ⟨s', hs', hsecond⟩ := h'.chains i s'' hs''
  obtain ⟨s, hs, hfirst⟩ := h.chains i s' hs'
  exact ⟨s, hs, hfirst.trans hsecond⟩

theorem Continues.chain (h : Continues b b') {i : Nat} {s : Stack ε} (hs : b.chains[i]? = some s) :
    ∃ s', b'.chains[i]? = some s' ∧ Stack.Continues s s' := by
  have hlt : i < b'.chains.length := h.length ▸ (List.getElem?_eq_some_iff.1 hs).1
  obtain ⟨s₀, hs₀, hcontinues⟩ := h.chains i _ (List.getElem?_eq_getElem hlt)
  cases hs.symm.trans hs₀
  exact ⟨_, List.getElem?_eq_getElem hlt, hcontinues⟩

theorem getElem?_update (b : Bench ε) (i j : Nat) (f : Stack ε → Stack ε × List LogEntry) :
    (b.update i f).chains[j]? = (b.chains[j]?).map fun s => if i = j then (f s).1 else s := by
  unfold update
  cases hs : b.chains[i]? with
  | none =>
    by_cases hj : i = j
    · rw [← hj, hs]
      rfl
    · simp [hj]
  | some s =>
    dsimp only
    rw [List.getElem?_set]
    by_cases hj : i = j
    · subst hj
      rw [hs, if_pos rfl, if_pos (List.getElem?_eq_some_iff.1 hs).1]
      simp
    · simp [hj]

theorem update_fields (b : Bench ε) (i : Nat) (f : Stack ε → Stack ε × List LogEntry) :
    (b.update i f).segments = b.segments ∧ (b.update i f).sources = b.sources ∧
      (b.update i f).queue = b.queue ∧ (b.update i f).chains.length = b.chains.length := by
  unfold update
  split <;> simp

theorem continues_update {i : Nat} {f : Stack ε → Stack ε × List LogEntry}
    (hf : ∀ s, Stack.Continues s (f s).1) : Continues b (b.update i f) := by
  obtain ⟨hsegments, hsources, -, hlength⟩ := update_fields b i f
  refine ⟨hsegments, hsources, hlength, fun j s' hs' => ?_⟩
  rw [getElem?_update] at hs'
  obtain ⟨s, hs, rfl⟩ := Option.map_eq_some_iff.1 hs'
  refine ⟨s, hs, ?_⟩
  split
  · exact hf s
  · exact .refl s

/-- A run of a stack is on one of the segments if its stack has it already, or if it is told so. -/
theorem Linked.update (h : Linked b) {i : Nat} {f : Stack ε → Stack ε × List LogEntry}
    (hf : ∀ s n, (f s).1.worker.map (·.segment) = some n →
      s.worker.map (·.segment) = some n ∨ n < b.segments.length) : Linked (b.update i f) := by
  obtain ⟨hsegments, hsources, -⟩ := update_fields b i f
  refine ⟨by rw [hsegments, hsources]; exact h.sources, fun s' hs' n hn => ?_⟩
  rw [hsegments]
  obtain ⟨j, hj⟩ := List.getElem?_of_mem hs'
  rw [getElem?_update] at hj
  obtain ⟨s, hs, rfl⟩ := Option.map_eq_some_iff.1 hj
  split at hn
  · rcases hf s n hn with hbefore | hlt
    · exact h.workers s (List.mem_of_getElem? hs) n hbefore
    · exact hlt
  · exact h.workers s (List.mem_of_getElem? hs) n hn

theorem Linked.continues (h : Linked b) (hc : Continues b b') : Linked b' := by
  refine ⟨by rw [hc.segments, hc.sources]; exact h.sources, fun s' hs' n hn => ?_⟩
  obtain ⟨i, hi⟩ := List.getElem?_of_mem hs'
  obtain ⟨s, hs, hcontinues⟩ := hc.chains i s' hi
  rw [hc.segments]
  exact h.workers s (List.mem_of_getElem? hs) n (hcontinues.run.symm.trans hn)

theorem find?_congr (hsegments : b'.segments = b.segments) (hsources : b'.sources = b.sources) (stages : List Stage) :
    b'.find? stages = b.find? stages := by
  unfold find?
  rw [hsegments, hsources]

/-- A run that is launched decodes the segment found; without one there is no run. -/
theorem segment_of_launch {s : Stack ε} (hcomplete : s.stages.all Stage.isComplete = true) (hw : s.worker = none)
    (found : Option (Nat × Segment)) : (s.launch found).1.input.segment = found.map Prod.fst ∧
      (s.launch found).1.worker.map (·.segment) = found.map Prod.fst := by
  cases found with
  | none =>
    obtain ⟨o, b, heq⟩ := s.exists_launch_of_idle (.inr rfl)
    rw [heq, hw]
    exact ⟨rfl, rfl⟩
  | some found =>
    obtain ⟨i, o, rate, heq, hi⟩ := s.exists_launch hcomplete found.1 found.2
    rw [heq]
    exact ⟨hi, rfl⟩

section Moves
variable [Engine ε]

theorem continues_settle (b : Bench ε) (i : Nat) : Continues b (b.settle i) := by
  unfold settle
  split
  · exact .refl b
  · exact continues_update fun s => Stack.continues_settle s _

theorem continues_enter (b : Bench ε) (i : Nat) : Continues b (b.enter i) := by
  unfold enter
  split
  · exact .refl b
  · refine Continues.trans (continues_update fun s => ?_) (continues_settle _ i)
    split
    · rename_i hw
      exact Stack.continues_enter hw
    · exact .refl s

theorem continues_letIn (b : Bench ε) : Continues b b.letIn := by
  unfold letIn
  generalize b.queue = queue
  induction queue generalizing b with
  | nil => exact .refl b
  | cons i queue ih =>
    refine Continues.trans ?_ (ih _)
    dsimp only
    split
    · exact .refl b
    · split
      · have hqueue : Continues b { b with queue := b.queue.filter (· ≠ i) } :=
          ⟨rfl, rfl, rfl, (Continues.refl b).chains⟩
        exact hqueue.trans (continues_enter _ i)
      · exact .refl b

theorem exists_cancel (h : Linked b) {i : Nat} {s : Stack ε} (hs : b.chains[i]? = some s) (hq : b.isQueued i = false) :
    ∃ b₁ s₁, b.cancel? i = some b₁ ∧ b₁.segments = b.segments ∧ b₁.sources = b.sources ∧
      b₁.chains[i]? = some s₁ ∧ Stack.Keeps s s₁ ∧ s₁.worker = none := by
  unfold cancel?
  rw [hq, if_neg (by decide)]
  cases hsegment : b.segmentOf? i with
  | none =>
    refine ⟨b, s, rfl, rfl, rfl, hs, .refl s, ?_⟩
    cases hw : s.worker with
    | none => rfl
    | some w =>
      have hlt := h.workers s (List.mem_of_getElem? hs) w.segment (by rw [hw]; rfl)
      simp [segmentOf?, hs, hw, List.getElem?_eq_getElem hlt] at hsegment
  | some segment =>
    obtain ⟨hsegments, hsources, -, -⟩ := update_fields b i fun s => s.cancel segment
    obtain ⟨hkeeps, hnone⟩ := Stack.keeps_cancel s segment
    exact ⟨_, _, rfl, hsegments, hsources, by rw [getElem?_update, hs, Option.map_some, if_pos rfl], hkeeps, hnone⟩

theorem exists_restart (h : Linked b) {i : Nat} {s : Stack ε} (hs : b.chains[i]? = some s)
    (hcomplete : s.stages.all Stage.isComplete = true) (hq : b.isQueued i = false) :
    ∃ b' s', b.restart? i = some b' ∧ b'.chains[i]? = some s' ∧ s'.input.segment = b.firstBehind? s.stages ∧
      s'.worker.map (·.segment) = b.firstBehind? s.stages := by
  obtain ⟨b₁, s₁, hcancel, hsegments, hsources, hs₁, hkeeps, hnone⟩ := exists_cancel h hs hq
  let b₂ := b₁.update i fun s => s.launch (b₁.find? s.stages)
  have hs₂ : b₂.chains[i]? = some (s₁.launch (b₁.find? s₁.stages)).1 := by
    rw [getElem?_update, hs₁, Option.map_some, if_pos rfl]
  rw [← hkeeps.stages] at hcomplete
  obtain ⟨hsegment, hrun⟩ := segment_of_launch hcomplete hnone (b₁.find? s₁.stages)
  rw [find?_congr hsegments hsources, hkeeps.stages, h.find?_eq] at hsegment hrun
  have hbegin : ∃ queue, b.restart? i = some { b₂ with queue := queue }.letIn := by
    unfold restart?
    rw [hcancel]
    exact ⟨_, rfl⟩
  obtain ⟨queue, hbegin⟩ := hbegin
  obtain ⟨s', hs', hcontinues⟩ := (continues_letIn { b₂ with queue := queue }).chain hs₂
  refine ⟨_, s', hbegin, hs', ?_, ?_⟩
  · rw [hcontinues.keeps.segment, find?_congr hsegments hsources, hkeeps.stages, hsegment]
  · rw [hcontinues.run, find?_congr hsegments hsources, hkeeps.stages, hrun]

/-- Where a new run of a stack has its segment from. It is begun unless the run before it waits for a lock. It
decodes the first segment behind the first assigned channel of a stage, of the first stage for which there is
one, and nothing runs if there is none for any stage, whatever is behind other channels. That is the segment
behind the first assigned channel that bears data if the first assigned channel of each stage does, where any
of the stage does. -/
theorem segment_of_restart (h : Linked b) {i : Nat} {s : Stack ε} (hs : b.chains[i]? = some s)
    (hcomplete : s.stages.all Stage.isComplete = true) :
    (b.restart? i).isSome = !b.isQueued i ∧
      (∀ b', b.restart? i = some b' → ∃ s', b'.chains[i]? = some s' ∧
        s'.input.segment = b.firstBehind? s.stages ∧ s'.worker.map (·.segment) = b.firstBehind? s.stages) ∧
      (b.firstBehind? s.stages = none ↔
        ∀ stage ∈ s.stages, ∀ signal, stage.assigned.head? = some signal → b.behind? signal = none) ∧
      ((∀ stage ∈ s.stages, (∃ signal ∈ stage.assigned, (b.behind? signal).isSome) →
          ∃ signal, stage.assigned.head? = some signal ∧ (b.behind? signal).isSome) →
        b.firstBehind? s.stages = b.scan? s.stages) := by
  have hrestart : b.isQueued i = true → b.restart? i = none := by
    intro hq
    unfold restart? cancel?
    rw [hq]
    rfl
  refine ⟨?_, fun b' hb' => ?_, ?_, fun hfirst => ?_⟩
  · cases hq : b.isQueued i with
    | true =>
      rw [hrestart hq]
      rfl
    | false =>
      obtain ⟨b', -, hb', -⟩ := exists_restart h hs hcomplete hq
      rw [hb']
      rfl
  · cases hq : b.isQueued i with
    | true => cases (hrestart hq).symm.trans hb'
    | false =>
      obtain ⟨b'', s', hb'', hrest⟩ := exists_restart h hs hcomplete hq
      cases hb'.symm.trans hb''
      exact ⟨s', hrest⟩
  · unfold firstBehind?
    simp only [List.findSome?_eq_none_iff, List.mem_filterMap, ← Stage.firstSignal?_eq]
    constructor
    · intro hnone stage hstage signal hsignal
      exact hnone signal ⟨stage, hstage, hsignal⟩
    · rintro hnone signal ⟨stage, hstage, hsignal⟩
      exact hnone stage hstage signal hsignal
  · exact firstBehind?_eq_scan? (by simpa only [Stage.firstSignal?_eq] using hfirst)

/-- There is no data behind the clock, so the data behind the second channel are not found. -/
theorem segment_of_restart_silent_clock :
    let stage : Stage := ⟨Spi.profile, [("clk", ⟨"clk", 0, none⟩), ("mosi", ⟨"mosi", 1, some 0⟩)], [], true⟩
    let s : Stack (Host Builtin) := .create [stage] (.ofRegistry Builtin.registry) .standard .stopped .shared
    let b : Bench (Host Builtin) := .create [⟨1, 4.0, 0.0, #[0, 3, 0, 1], by decide⟩] [⟨8, [0]⟩] [s]
    Linked b ∧ b.chains[0]? = some s ∧ s.stages.all Stage.isComplete = true ∧ b.scan? s.stages = some 0 ∧
      ∃ b' s', b.restart? 0 = some b' ∧ b'.chains[0]? = some s' ∧ s'.input.segment = none ∧
        s'.worker.map (·.segment) = none := by
  intro stage s b
  have hlinked : Linked b := by
    refine ⟨fun source hsource n hn => ?_, fun t ht n hn => ?_⟩
    · rw [List.mem_singleton.1 hsource] at hn
      rw [List.mem_singleton.1 hn]
      exact Nat.zero_lt_one
    · rw [List.mem_singleton.1 ht] at hn
      cases hn
  have hs : b.chains[0]? = some s := rfl
  have hcomplete : s.stages.all Stage.isComplete = true := by decide
  have hscan : b.scan? s.stages = some 0 := by decide
  have hfirst : b.firstBehind? s.stages = none := by decide
  obtain ⟨hbegins, hfound, -⟩ := segment_of_restart hlinked hs hcomplete
  obtain ⟨b', hb'⟩ := Option.isSome_iff_exists.1 hbegins
  obtain ⟨s', hs', hsegment, hrun⟩ := hfound b' hb'
  rw [hfirst] at hsegment hrun
  exact ⟨hlinked, hs, hcomplete, hscan, b', s', hb', hs', hsegment, hrun⟩

omit [Engine ε] in
theorem mem_modify {α : Type} {f : α → α} {i : Nat} {xs : List α} {a : α} (h : a ∈ xs.modify i f) :
    a ∈ xs ∨ ∃ x ∈ xs, f x = a := by
  obtain ⟨j, hj⟩ := List.getElem?_of_mem h
  rw [List.getElem?_modify] at hj
  obtain ⟨x, hx, rfl⟩ := Option.map_eq_some_iff.1 hj
  split
  · exact .inr ⟨x, List.mem_of_getElem? hx, rfl⟩
  · exact .inl (List.mem_of_getElem? hx)

/-- What can be done with a bench. -/
inductive Goes : Bench ε → Bench ε → Prop
  | restart {b b' : Bench ε} {i : Nat} (h : b.restart? i = some b') : Goes b b'
  | takeDown {b b' : Bench ε} {i : Nat} (h : b.takeDown? i = some b') : Goes b b'
  | await {b b' : Bench ε} {i : Nat} (h : b.await? i = some b') : Goes b b'
  | dataArrived {b : Bench ε} (i : Nat) : Goes b (b.dataArrived i)
  | frameEnded {b : Bench ε} (i : Nat) : Goes b (b.frameEnded i)
  | release {b : Bench ε} (i : Nat) : Goes b (b.release i)
  | append {b b' : Bench ε} {n : Nat} {units : Bytes} (h : b.append n units = some (.ok b')) : Goes b b'
  | pushSegment {b : Bench ε} (source : Nat) (segment : Segment) : Goes b (b.pushSegment source segment)
  | clearSource {b : Bench ε} (source : Nat) : Goes b (b.clearSource source)
  /-- A stack is cleared, edited, or told something else that leaves its run alone. -/
  | tell {b : Bench ε} (i : Nat) {f : Stack ε → Stack ε × List LogEntry} (hf : ∀ s, (f s).1.worker = s.worker) :
      Goes b (b.update i f)

namespace Linked

omit [Engine ε] in
theorem find?_lt {stages : List Stage} {n : Nat} {segment : Segment}
    (hfound : b.find? stages = some (n, segment)) : n < b.segments.length := by
  obtain ⟨number, -, hfound⟩ := Option.bind_eq_some_iff.1 hfound
  obtain ⟨segment', hsegment, heq⟩ := Option.bind_eq_some_iff.1 hfound
  cases heq
  exact (List.getElem?_eq_some_iff.1 hsegment).1

theorem cancel (h : Linked b) {i : Nat} (hc : b.cancel? i = some b') : Linked b' := by
  unfold cancel? at hc
  split at hc
  · cases hc
  · split at hc
    · cases hc
      exact h
    · cases hc
      refine h.update fun s n hn => ?_
      rw [(Stack.keeps_cancel s _).2] at hn
      cases hn

omit [Engine ε] in
theorem launch (h : Linked b) (i : Nat) : Linked (b.update i fun s => s.launch (b.find? s.stages)) := by
  refine h.update fun s n hn => ?_
  cases hcomplete : s.stages.all Stage.isComplete with
  | false =>
    obtain ⟨o, broadcast, heq⟩ := s.exists_launch_of_idle (.inl hcomplete)
    rw [heq] at hn
    exact .inl hn
  | true =>
    cases hfound : b.find? s.stages with
    | none =>
      rw [hfound] at hn
      obtain ⟨o, broadcast, heq⟩ := s.exists_launch_of_idle (.inr rfl)
      rw [heq] at hn
      exact .inl hn
    | some found =>
      rw [hfound] at hn
      obtain ⟨j, o, rate, heq, -⟩ := s.exists_launch hcomplete found.1 found.2
      rw [heq] at hn
      cases hn
      exact .inr (find?_lt hfound)

theorem change (h : Linked b) (i : Nat) {f : Stack ε → Stack ε} (hf : ∀ s, (f s).worker = s.worker) :
    Linked (b.change i f) := by
  have hupdate : Linked (b.update i fun s => (f s, [])) := h.update fun s n hn => .inl (hf s ▸ hn)
  exact (hupdate.continues (continues_settle _ i)).continues (continues_letIn _)

/-- Whatever is done with a bench, its numbers stay those of segments that it has. -/
theorem goes (h : Linked b) (hg : Goes b b') : Linked b' := by
  cases hg with
  | @restart _ i hr =>
    obtain ⟨b₁, hcancel, hrest⟩ := Option.bind_eq_some_iff.1 hr
    cases hrest
    have hlaunch := (h.cancel hcancel).launch i
    refine Linked.continues ?_ (continues_letIn _)
    exact ⟨hlaunch.sources, hlaunch.workers⟩
  | takeDown ht =>
    obtain ⟨b₁, hcancel, hrest⟩ := Option.bind_eq_some_iff.1 ht
    cases hrest
    have hcancelled := h.cancel hcancel
    refine Linked.continues ?_ (continues_letIn _)
    exact ⟨hcancelled.sources, hcancelled.workers⟩
  | await ha =>
    obtain ⟨s, -, hrest⟩ := Option.bind_eq_some_iff.1 ha
    split at hrest
    · cases hrest
    · cases hrest
      refine h.update fun s n hn => ?_
      rw [(Stack.keeps_join s).2] at hn
      cases hn
  | dataArrived i =>
    refine h.change i fun s => ?_
    split
    · obtain ⟨input, heq⟩ := s.exists_announce _
      rw [heq]
    · rfl
  | frameEnded i =>
    refine h.change i fun s => ?_
    obtain ⟨input, heq⟩ := s.exists_complete
    rw [heq]
  | release i =>
    unfold release
    split
    · split
      · have hupdate : Linked (b.update i Stack.resume) :=
          h.update fun s n hn => .inl ((Stack.continues_resume s).run ▸ hn)
        exact (hupdate.continues (continues_settle _ i)).continues (continues_letIn _)
      · exact h
    · exact h
  | append ha =>
    obtain ⟨segment, -, hrest⟩ := Option.bind_eq_some_iff.1 ha
    replace hrest := Option.some.inj hrest
    split at hrest
    · cases hrest
      exact ⟨by simpa using h.sources, by simpa using h.workers⟩
    · cases hrest
  | pushSegment source segment =>
    have hlength : (b.pushSegment source segment).segments.length = b.segments.length + 1 := List.length_append
    refine ⟨fun source' hsource' n hn => ?_, fun s hs n hn => ?_⟩
    · rw [hlength]
      rcases mem_modify hsource' with hold | ⟨old, hold, rfl⟩
      · exact Nat.lt_succ_of_lt (h.sources source' hold n hn)
      · rcases List.mem_append.1 hn with hn | hn
        · exact Nat.lt_succ_of_lt (h.sources old hold n hn)
        · rw [List.mem_singleton.1 hn]
          exact Nat.lt_succ_self _
    · rw [hlength]
      exact Nat.lt_succ_of_lt (h.workers s hs n hn)
  | clearSource source =>
    refine ⟨fun source' hsource' n hn => ?_, h.workers⟩
    rcases mem_modify hsource' with hold | ⟨old, -, rfl⟩
    · exact h.sources source' hold n hn
    · cases hn
  | tell i hf => exact h.update fun s n hn => .inl (hf s ▸ hn)

end Linked

end Moves

end Bench
end LogicDecode
