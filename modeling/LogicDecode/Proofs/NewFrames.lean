import LogicDecode.Proofs.Scanning

/-!
# Which segment a new frame has decoded

A new frame comes with a segment of its own, behind those that its source still holds. The run that is begun for it is
on the oldest segment of the source all the same, which is the new one only if the source held none
(`Bench.segment_of_new_frame`). As long as no other run of the stack is begun, its samples, its time and its rate
are those of that segment, and what is announced to the run is how many samples that segment has by then.

`Stack.On` says which segment a stack is on. It goes with each move of the worker, so also with whatever the workers of
a bench do between two changes from outside (`Bench.Has`).
-/

namespace LogicDecode

/-- The rate that a run on a segment goes by; of an unknown one it is one sample per second. -/
def Segment.runRate (seg : Segment) : Float := if seg.rate == 0.0 then 1.0 else seg.rate

namespace Stack
variable {ε : Type} {t t' : Stack ε} {w : Worker} {seg : Segment} {k : Nat} {time hz : Float}

/-- A stack is on a segment, with the time and the rate that it goes by; so is its worker as long as it has one. -/
structure On (k : Nat) (time hz : Float) (t : Stack ε) : Prop where
  segment : t.input.segment = some k
  startTime : t.input.startTime = time
  rate : t.input.rate = hz
  worker : ∀ w, t.worker = some w → w.segment = k ∧ w.rate = hz

theorem on_launch (t : Stack ε) (hcomplete : t.stages.all Stage.isComplete = true) (k : Nat) (seg : Segment) :
    (t.launch (some (k, seg))).1.On k seg.startTime seg.runRate := by
  unfold launch
  dsimp only [Stack.clear]
  simp only [hcomplete, Bool.not_true, Bool.false_eq_true, if_false]
  exact ⟨rfl, rfl, rfl, fun w hw => by cases hw; exact ⟨rfl, rfl⟩⟩

/-- Of what is on a segment only how much has been announced may change, and the worker may be forgotten. -/
theorem On.told (h : On k time hz t) (count : Nat) (complete : Bool)
    (hi : t'.input = { t.input with count := count, complete := complete })
    (hw : t'.worker = t.worker ∨ t'.worker = none) : On k time hz t' := by
  refine ⟨by rw [hi]; exact h.segment, by rw [hi]; exact h.startTime, by rw [hi]; exact h.rate, fun w hw' => ?_⟩
  rcases hw with hw | hw
  · exact h.worker w (hw ▸ hw')
  · rw [hw] at hw'
    cases hw'

section Moves
variable [Engine ε]

theorem input_of_absorbs {stop count : Nat} {sub : Submission} (h : Absorbs t w stop count sub t') :
    t'.input = t.input := by
  cases h <;> rfl

/-- A worker that enters announces the samples of its segment; nothing else that it does changes the input. -/
theorem count_of_works (h : Works seg t w t') :
    ∃ n, (n = t.input.count ∨ n = seg.size) ∧ t'.input = { t.input with count := n } := by
  cases h with
  | turnedAway _ hn => exact ⟨_, hn, input_conclude ..⟩
  | opened => exact ⟨seg.size, .inr rfl, rfl⟩
  | unbuilt | stopped | caughtUp | overflow | held | roused | done => exact ⟨t.input.count, .inl rfl, rfl⟩
  | sent _ _ _ _ _ ha =>
    have hsame := input_of_absorbs ha
    exact ⟨t.input.count, .inl rfl, hsame⟩
  | released _ ha => exact ⟨t.input.count, .inl rfl, input_of_absorbs ha⟩
  | closed => exact ⟨t.input.count, .inl rfl, input_conclude ..⟩

omit [Engine ε] in
/-- A worker that goes on is on the same segment. -/
theorem On.goesOn (h : On k time hz t) (hw : t.worker = some w) {p : Phase} {n : Nat}
    (hinput : t'.input = { t.input with count := n }) (hworker : t'.worker = some { w with phase := p }) :
    On k time hz t' := by
  refine ⟨by rw [hinput]; exact h.segment, by rw [hinput]; exact h.startTime, by rw [hinput]; exact h.rate,
    fun w' hw' => ?_⟩
  rw [hworker] at hw'
  cases hw'
  exact h.worker w hw

theorem On.works (h : On k time hz t) (hw : t.worker = some w) {p : Phase}
    (hworks : Works seg t { w with phase := p } t') : On k time hz t' := by
  obtain ⟨n, -, hinput⟩ := count_of_works hworks
  obtain ⟨-, q, hworker⟩ := keeps_of_works hworks
  exact h.goesOn hw hinput hworker

theorem On.resume (h : On k time hz t) : On k time hz t.resume.1 := by
  unfold Stack.resume
  cases hw : t.worker with
  | none => exact h
  | some w =>
    dsimp only
    cases w.phase with
    | held stop count sub =>
      have ha := absorbs t w stop count sub
      obtain ⟨-, p, hworker⟩ := keeps_of_absorbs ha
      exact h.goesOn hw (n := t.input.count) (input_of_absorbs ha) hworker
    | queued | feeding | waiting | closing | ended | faulted => exact h

omit [Engine ε] in
theorem On.join (h : On k time hz t) : On k time hz t.join.1 := by
  unfold Stack.join
  split
  · exact h
  · exact h.told t.input.count t.input.complete rfl (.inr rfl)

end Moves
end Stack

namespace Bench
variable {ε : Type} {b b' : Bench ε} {P : Stack ε → Prop} {i j k n : Nat} {time hz : Float}

/-- The stack of a number has a property. -/
def Has (b : Bench ε) (i : Nat) (P : Stack ε → Prop) : Prop := ∃ t, b.chains[i]? = some t ∧ P t

theorem Has.update (h : b.Has i P) {f : Stack ε → Stack ε × List LogEntry}
    (hf : j = i → ∀ t, P t → P (f t).1) : (b.update j f).Has i P := by
  obtain ⟨t, ht, hP⟩ := h
  refine ⟨_, by rw [getElem?_update, ht, Option.map_some], ?_⟩
  split
  · rename_i heq
    exact hf heq t hP
  · exact hP

variable [Engine ε]

/-- What workers do on some segments keeps a property of stacks. -/
def Kept (segments : List Segment) (P : Stack ε → Prop) : Prop :=
  ∀ t w p seg t', t.worker = some w → segments[w.segment]? = some seg →
    Stack.Works seg t { w with phase := p } t' → P t → P t'

theorem kept_on (segments : List Segment) : Kept (ε := ε) segments (Stack.On k time hz) :=
  fun _ _ _ _ _ hw _ hworks h => h.works hw hworks

/-- The samples that are announced are those of the segment, also by a worker that enters. -/
theorem kept_on_count {segments : List Segment} {now : Segment} (hnow : segments[k]? = some now) :
    Kept (ε := ε) segments fun t => t.On k time hz ∧ t.input.count = now.size := by
  rintro t w p seg t' hw hseg hworks ⟨hon, hcount⟩
  refine ⟨hon.works hw hworks, ?_⟩
  obtain ⟨n, hn, hinput⟩ := Stack.count_of_works hworks
  rw [(hon.worker w hw).1, hnow] at hseg
  cases hseg
  rw [hinput]
  exact hn.elim (·.trans hcount) id

theorem Kept.settle {segments : List Segment} (hP : Kept segments P) {t : Stack ε} {seg : Segment}
    (hseg : ∀ w, t.worker = some w → segments[w.segment]? = some seg) (h : P t) : P (t.settle seg).1 := by
  have hall : P (t.settle seg).1 ∧ ∀ w, (t.settle seg).1.worker = some w → segments[w.segment]? = some seg := by
    have hsteps := Stack.steps_settle t seg
    generalize (t.settle seg).1 = t' at hsteps ⊢
    induction hsteps with
    | refl => exact ⟨h, hseg⟩
    | tail _ hstep ih =>
      obtain ⟨log, hstep⟩ := hstep
      obtain ⟨w, hw, hworks⟩ := Stack.works_of_step hstep
      obtain ⟨-, p, hworker⟩ := Stack.keeps_of_works hworks
      refine ⟨hP _ w w.phase seg _ hw (ih.2 w hw) hworks ih.1, fun w' hw' => ?_⟩
      rw [hworker] at hw'
      cases hw'
      exact ih.2 w hw
  exact hall.1

omit [Engine ε] in
theorem segment_of_segmentOf? {seg : Segment} (hseg : b.segmentOf? i = some seg) {t : Stack ε}
    (ht : b.chains[i]? = some t) {w : Worker} (hw : t.worker = some w) : b.segments[w.segment]? = some seg := by
  simpa [segmentOf?, ht, hw] using hseg

namespace Has

theorem settle (h : b.Has i P) (hP : Kept b.segments P) (j : Nat) : (b.settle j).Has i P := by
  obtain ⟨t, ht, hPt⟩ := h
  unfold Bench.settle
  cases hseg : b.segmentOf? j with
  | none => exact ⟨t, ht, hPt⟩
  | some seg =>
    refine ⟨_, by rw [getElem?_update, ht, Option.map_some], ?_⟩
    split
    · rename_i heq
      subst heq
      exact hP.settle (fun w hw => segment_of_segmentOf? hseg ht hw) hPt
    · exact hPt

theorem enter (h : b.Has i P) (hP : Kept b.segments P) (j : Nat) : (b.enter j).Has i P := by
  obtain ⟨t, ht, hPt⟩ := h
  unfold Bench.enter
  cases hseg : b.segmentOf? j with
  | none => exact ⟨t, ht, hPt⟩
  | some seg =>
    refine settle ⟨_, by rw [getElem?_update, ht, Option.map_some], ?_⟩ (by rwa [(update_fields ..).1]) j
    split
    · rename_i heq
      subst heq
      cases hw : t.worker with
      | none => exact hPt
      | some w =>
        exact hP t w .queued seg _ hw (segment_of_segmentOf? hseg ht hw) (Stack.works_of_enter rfl) hPt
    · exact hPt

theorem letIn (h : b.Has i P) (hP : Kept b.segments P) : b.letIn.Has i P := by
  unfold Bench.letIn
  generalize b.queue = queue
  induction queue generalizing b with
  | nil => exact h
  | cons j queue ih =>
    rw [List.foldl_cons]
    split
    · exact ih h hP
    · split
      · have hentered : (({ b with queue := b.queue.filter (· ≠ j) }).enter j).Has i P :=
          enter (b := { b with queue := b.queue.filter (· ≠ j) }) h hP j
        refine ih hentered ?_
        rwa [(continues_enter _ j).segments]
      · exact ih h hP

theorem proceed (h : b.Has i P) (hP : Kept b.segments P) (j : Nat) : (b.proceed j).Has i P :=
  (h.settle hP j).letIn (by rwa [(continues_settle b j).segments])

theorem change (h : b.Has i P) (hP : Kept b.segments P) {f : Stack ε → Stack ε} (hf : j = i → ∀ t, P t → P (f t)) :
    (b.change j f).Has i P :=
  proceed (h.update hf) (by rwa [(update_fields ..).1]) j

end Has

theorem segments_of_cancel (h : b.cancel? j = some b') : b'.segments = b.segments := by
  unfold cancel? at h
  split at h
  · cases h
  · split at h
    · cases h
      rfl
    · cases h
      exact (update_fields ..).1

theorem Has.cancel (h : b.Has i P) (hne : j ≠ i) (hc : b.cancel? j = some b') : b'.Has i P := by
  unfold cancel? at hc
  split at hc
  · cases hc
  · split at hc
    · cases hc
      exact h
    · cases hc
      exact h.update fun heq => absurd heq hne

theorem segments_of_restart (h : b.restart? j = some b') : b'.segments = b.segments := by
  obtain ⟨b₁, hcancel, hrest⟩ := Option.bind_eq_some_iff.1 h
  cases hrest
  rw [(continues_letIn _).segments, ← segments_of_cancel hcancel]
  exact (update_fields ..).1

/-- What can be done with a bench without a new run of one of its stacks. -/
inductive Passes (i : Nat) : Bench ε → Bench ε → Prop
  | restart {b b' : Bench ε} {j : Nat} (hne : j ≠ i) (h : b.restart? j = some b') : Passes i b b'
  | takeDown {b b' : Bench ε} {j : Nat} (hne : j ≠ i) (h : b.takeDown? j = some b') : Passes i b b'
  | await {b b' : Bench ε} {j : Nat} (h : b.await? j = some b') : Passes i b b'
  | dataArrived {b : Bench ε} (j : Nat) : Passes i b (b.dataArrived j)
  | frameEnded {b : Bench ε} (j : Nat) : Passes i b (b.frameEnded j)
  | release {b : Bench ε} (j : Nat) : Passes i b (b.release j)
  | append {b b' : Bench ε} {n : Nat} {units : Bytes} (h : b.append n units = some (.ok b')) : Passes i b b'
  | pushSegment {b : Bench ε} (source : Nat) (segment : Segment) : Passes i b (b.pushSegment source segment)
  | clearSource {b : Bench ε} (source : Nat) : Passes i b (b.clearSource source)
  /-- A stack is cleared, edited, or told something else that leaves its run alone. -/
  | tell {b : Bench ε} (j : Nat) {f : Stack ε → Stack ε × List LogEntry} (hw : ∀ s, (f s).1.worker = s.worker)
      (hi : ∀ s, ∃ count complete, (f s).1.input = { s.input with count := count, complete := complete }) :
      Passes i b (b.update j f)

theorem segments_of_change (b : Bench ε) (j : Nat) (f : Stack ε → Stack ε) :
    (b.change j f).segments = b.segments := by
  unfold change proceed
  rw [(continues_letIn _).segments, (continues_settle _ _).segments, (update_fields ..).1]

theorem keeps_of_change (j : Nat) {f : Stack ε → Stack ε} (hf : ∀ t, (f t).worker = t.worker ∧
    ∃ count complete, (f t).input = { t.input with count := count, complete := complete }) :
    b.segments.length ≤ (b.change j f).segments.length ∧
      (b.Has i (Stack.On k time hz) → (b.change j f).Has i (Stack.On k time hz)) := by
  refine ⟨Nat.le_of_eq (congrArg List.length (segments_of_change b j f).symm), fun hon => ?_⟩
  refine hon.change (kept_on _) fun _ t ht => ?_
  obtain ⟨hw, count, complete, hi⟩ := hf t
  exact ht.told count complete hi (.inl hw)

/-- No segment is lost, and the stack stays on the one that it is on. -/
theorem Passes.keeps (h : Passes i b b') :
    b.segments.length ≤ b'.segments.length ∧ (b.Has i (Stack.On k time hz) → b'.Has i (Stack.On k time hz)) := by
  cases h with
  | @restart _ j hne h =>
    refine ⟨Nat.le_of_eq (congrArg List.length (segments_of_restart h).symm), fun hon => ?_⟩
    obtain ⟨b₁, hcancel, hrest⟩ := Option.bind_eq_some_iff.1 h
    cases hrest
    have hlaunched := (hon.cancel hne hcancel).update (j := j)
      (f := fun s => s.launch (b₁.find? s.stages)) fun heq => absurd heq hne
    exact Has.letIn (b := { b₁.update j _ with queue := _ }) hlaunched (kept_on _)
  | takeDown hne h =>
    obtain ⟨b₁, hcancel, hrest⟩ := Option.bind_eq_some_iff.1 h
    cases hrest
    refine ⟨Nat.le_of_eq (congrArg List.length ?_), fun hon => ?_⟩
    · rw [(continues_letIn _).segments, ← segments_of_cancel hcancel]
    · have hcancelled : b₁.Has i (Stack.On k time hz) := hon.cancel hne hcancel
      exact Has.letIn (b := { b₁ with gone := _ }) hcancelled (kept_on _)
  | await h =>
    obtain ⟨s, -, hrest⟩ := Option.bind_eq_some_iff.1 h
    split at hrest
    · cases hrest
    · cases hrest
      exact ⟨Nat.le_of_eq (congrArg List.length (update_fields ..).1.symm), fun hon => hon.update fun _ _ ht => ht.join⟩
  | dataArrived j =>
    refine keeps_of_change j fun t => ?_
    split
    · unfold Stack.announce
      split
      · exact ⟨rfl, _, _, rfl⟩
      · exact ⟨rfl, t.input.count, t.input.complete, rfl⟩
    · exact ⟨rfl, t.input.count, t.input.complete, rfl⟩
  | frameEnded j =>
    refine keeps_of_change j fun t => ?_
    unfold Stack.complete
    split
    · exact ⟨rfl, _, _, rfl⟩
    · exact ⟨rfl, t.input.count, t.input.complete, rfl⟩
  | release j =>
    unfold Bench.release
    split
    · split
      · refine ⟨Nat.le_of_eq (congrArg List.length ?_), fun hon => ?_⟩
        · exact ((continues_letIn _).segments.trans ((continues_settle _ j).segments.trans (update_fields ..).1)).symm
        · exact (hon.update fun _ _ ht => ht.resume).proceed (kept_on _) j
      · exact ⟨Nat.le_refl _, id⟩
    · exact ⟨Nat.le_refl _, id⟩
  | append h =>
    obtain ⟨segment, -, hrest⟩ := Option.bind_eq_some_iff.1 h
    replace hrest := Option.some.inj hrest
    split at hrest
    · cases hrest
      exact ⟨Nat.le_of_eq List.length_set.symm, id⟩
    · cases hrest
  | pushSegment source segment =>
    exact ⟨by simp [Bench.pushSegment], id⟩
  | clearSource source => exact ⟨Nat.le_refl _, id⟩
  | tell j hw hi =>
    refine ⟨Nat.le_of_eq (congrArg List.length (update_fields ..).1.symm), fun hon => hon.update fun _ t ht => ?_⟩
    obtain ⟨count, complete, hinput⟩ := hi t
    exact ht.told count complete hinput (.inl (hw t))

theorem keeps_of_passes (h : Relation.ReflTransGen (Passes i) b b') :
    b.segments.length ≤ b'.segments.length ∧ (b.Has i (Stack.On k time hz) → b'.Has i (Stack.On k time hz)) := by
  induction h with
  | refl => exact ⟨Nat.le_refl _, id⟩
  | @tail c d _ hstep ih =>
    have hkeeps : c.segments.length ≤ d.segments.length ∧
        (c.Has i (Stack.On k time hz) → d.Has i (Stack.On k time hz)) := hstep.keeps
    exact ⟨Nat.le_trans ih.1 hkeeps.1, fun h => hkeeps.2 (ih.2 h)⟩

omit [Engine ε] in
theorem findSome?_of_find? {α β : Type} {f : α → Option β} {xs : List α} {a : α}
    (h : xs.find? (fun x => (f x).isSome) = some a) : xs.findSome? f = f a := by
  induction xs with
  | nil => cases h
  | cons x xs ih =>
    rw [List.findSome?_cons]
    cases hx : f x with
    | none =>
      rw [List.find?_cons_of_neg (by simp [hx])] at h
      exact ih h
    | some y =>
      rw [List.find?_cons_of_pos (by simp [hx])] at h
      cases h
      exact hx.symm

omit [Engine ε] in
/-- A run that is begun is on the segment of the number that is found. -/
theorem find?_of_firstBehind? (h : Linked b) {stages : List Stage} (hk : b.firstBehind? stages = some k) :
    ∃ seg, b.segments[k]? = some seg ∧ b.find? stages = some (k, seg) := by
  obtain ⟨⟨number, seg⟩, hfound, rfl⟩ := Option.map_eq_some_iff.1 ((h.find?_eq stages).trans hk)
  obtain ⟨number', -, hrest⟩ := Option.bind_eq_some_iff.1 hfound
  obtain ⟨seg', hseg, heq⟩ := Option.bind_eq_some_iff.1 hrest
  cases heq
  exact ⟨seg, hseg, hfound⟩

theorem isQueued_of_restart (hr : b.restart? i = some b') : b.isQueued i = false := by
  refine Bool.eq_false_iff.2 fun hqueued => ?_
  unfold restart? cancel? at hr
  rw [hqueued] at hr
  cases hr

theorem on_of_restart (h : Linked b) {s : Stack ε} (hs : b.chains[i]? = some s)
    (hcomplete : s.stages.all Stage.isComplete = true) {seg : Segment} (hfound : b.find? s.stages = some (k, seg))
    (hr : b.restart? i = some b') :
    b'.Has i fun t => t.On k seg.startTime seg.runRate := by
  obtain ⟨b₁, s₁, hcancel, hsegments, hsources, hs₁, hkeeps, -⟩ := exists_cancel h hs (isQueued_of_restart hr)
  rw [restart?, hcancel] at hr
  cases hr
  have hfound₁ : b₁.find? s₁.stages = some (k, seg) := by
    rw [find?_congr hsegments hsources, hkeeps.stages, hfound]
  have hlaunched := Stack.on_launch s₁ (hkeeps.stages ▸ hcomplete) k seg
  refine Has.letIn (b := { b₁.update i _ with queue := _ }) ?_ (kept_on _)
  exact ⟨_, by rw [getElem?_update, hs₁, Option.map_some, if_pos rfl], by rwa [hfound₁]⟩

/-- What is announced to a stack is how many samples its segment has by then. -/
theorem count_of_dataArrived (hon : b.Has i (Stack.On k time hz)) {now : Segment} (hnow : b.segments[k]? = some now) :
    (b.dataArrived i).Has i fun t => t.On k time hz ∧ t.input.count = now.size := by
  obtain ⟨t, ht, hon⟩ := hon
  unfold dataArrived change
  refine Has.proceed ⟨_, by rw [getElem?_update, ht, Option.map_some, if_pos rfl], ?_⟩
    (by rw [(update_fields ..).1]; exact kept_on_count hnow) i
  dsimp only
  rw [hon.segment, Option.bind_some, hnow]
  dsimp only
  unfold Stack.announce
  rw [hon.segment, if_pos Option.isSome_some]
  exact ⟨hon.told now.size t.input.complete rfl (.inl rfl), rfl⟩

/-- What a new frame has decoded. When a segment comes to the source behind the first channel that bears data, a run
that is begun then is on the oldest segment of that source: its samples, its time and its rate are those of the new one
only if the source held none. Whatever else is done with the bench, as long as no other run of the stack is begun, it
stays on that segment, and as many samples are announced to it as that segment has. -/
theorem segment_of_new_frame (h : Linked b) {s : Stack ε} {source : Source Nat} {signal : Signal} (segment : Segment)
    (hs : b.chains[i]? = some s) (hcomplete : s.stages.all Stage.isComplete = true)
    (hsource : b.sources[n]? = some source) (hn : signal.source = some n)
    (hsignal : (s.stages.filterMap Stage.firstSignal?).find?
      (fun x => ((b.pushSegment n segment).behind? x).isSome) = some signal) :
    let k := source.segments.head?.getD b.segments.length
    (k = b.segments.length ↔ source.segments = []) ∧
      ((b.pushSegment n segment).restart? i).isSome = !b.isQueued i ∧
      ∃ first, (b.pushSegment n segment).segments[k]? = some first ∧ (source.segments = [] → first = segment) ∧
        ∀ b', (b.pushSegment n segment).restart? i = some b' →
          (b'.Has i fun t => t.On k first.startTime first.runRate ∧ t.worker.map (·.segment) = some k) ∧
          ∀ b'', Relation.ReflTransGen (Passes i) b' b'' → ∃ now, b''.segments[k]? = some now ∧
            (b''.dataArrived i).Has i fun t => t.On k first.startTime first.runRate ∧ t.input.count = now.size := by
  intro k
  have hpushed : Linked (b.pushSegment n segment) := h.goes (.pushSegment n segment)
  have hold : ∀ m, source.segments.head? = some m → m < b.segments.length := fun m hm =>
    h.sources source (List.mem_of_getElem? hsource) m (List.mem_of_mem_head? hm)
  have hfirst : (b.pushSegment n segment).firstBehind? s.stages = some k := by
    refine (findSome?_of_find? hsignal).trans ?_
    simp [behind?, hn, pushSegment, hsource, Source.push, Source.first?, k]
  obtain ⟨first, hseg, hfound⟩ := find?_of_firstBehind? hpushed hfirst
  refine ⟨?_, ?_, first, hseg, fun hnil => ?_, fun b' hr => ?_⟩
  · cases hsegments : source.segments with
    | nil => simp [k, hsegments]
    | cons m ms =>
      have hlt := hold m (by rw [hsegments]; rfl)
      simp [k, hsegments]
      omega
  · cases hq : b.isQueued i with
    | true =>
      have hqueued : (b.pushSegment n segment).isQueued i = true := hq
      unfold restart? cancel?
      rw [hqueued]
      rfl
    | false =>
      obtain ⟨b', -, hb', -⟩ := exists_restart hpushed hs hcomplete hq
      rw [hb']
      rfl
  · have hk : k = b.segments.length := by simp [k, hnil]
    rw [hk] at hseg
    simpa [pushSegment] using hseg.symm
  · obtain ⟨t, ht, hon⟩ := on_of_restart hpushed hs hcomplete hfound hr
    obtain ⟨b₂, t', hr', ht', -, hrun⟩ := exists_restart hpushed hs hcomplete (isQueued_of_restart hr)
    cases hr.symm.trans hr'
    cases ht.symm.trans ht'
    refine ⟨⟨t, ht, hon, hrun.trans hfirst⟩, fun b'' hpasses => ?_⟩
    obtain ⟨hlength, hlater⟩ := keeps_of_passes hpasses
    have hlt : k < b''.segments.length := by
      have := (List.getElem?_eq_some_iff.1 hseg).1
      rw [← segments_of_restart hr] at this
      omega
    have hnow := List.getElem?_eq_getElem hlt
    exact ⟨_, hnow, count_of_dataArrived (hlater ⟨t, ht, hon⟩) hnow⟩

/-- The source still holds a segment of two samples, at one per second from the start, when one of four samples comes.
The run that is begun is on the old one. -/
theorem segment_of_new_frame_behind_old :
    let stage : Stage := ⟨Parallel.profile, [("clk", ⟨"clk", 0, some 0⟩), ("d0", ⟨"d0", 1, some 0⟩)], [], true⟩
    let s : Stack (Host Builtin) := .create [stage] (.ofRegistry Builtin.registry) .standard .stopped .shared
    let old : Segment := ⟨1, 2.0, 0.0, #[0, 1], by decide⟩
    let new : Segment := ⟨1, 4.0, 1.0, #[0, 3, 0, 1], by decide⟩
    let b : Bench (Host Builtin) := .create [old] [⟨8, [0]⟩] [s]
    Linked b ∧ b.chains[0]? = some s ∧ s.stages.all Stage.isComplete = true ∧
      ∃ b', (b.pushSegment 0 new).restart? 0 = some b' ∧ (b'.Has 0 fun t => t.input.startTime = old.startTime ∧
        t.worker.map (·.segment) = some 0) ∧ (b'.dataArrived 0).Has 0 fun t => t.input.count = 2 := by
  intro stage s old new b
  have hlinked : Linked b := by
    refine ⟨fun source hsource m hm => ?_, fun t ht m hm => ?_⟩
    · rw [List.mem_singleton.1 hsource] at hm
      rw [List.mem_singleton.1 hm]
      exact Nat.zero_lt_one
    · rw [List.mem_singleton.1 ht] at hm
      cases hm
  have hs : b.chains[0]? = some s := rfl
  have hcomplete : s.stages.all Stage.isComplete = true := by decide
  have hsource : b.sources[0]? = some ⟨8, [0]⟩ := rfl
  have hsignal : (s.stages.filterMap Stage.firstSignal?).find?
      (fun x => ((b.pushSegment 0 new).behind? x).isSome) = some ⟨"clk", 0, some 0⟩ := by decide
  obtain ⟨-, hbegins, first, hfirst, -, hrun⟩ := segment_of_new_frame hlinked new hs hcomplete hsource rfl hsignal
  obtain rfl : first = old := (Option.some.inj hfirst).symm
  obtain ⟨b', hb'⟩ := Option.isSome_iff_exists.1 hbegins
  obtain ⟨⟨t, ht, hon, hworker⟩, hlater⟩ := hrun b' hb'
  obtain ⟨now, hnow, t', ht', -, hcount⟩ := hlater b' .refl
  rw [segments_of_restart hb', hfirst] at hnow
  cases hnow
  exact ⟨hlinked, hs, hcomplete, b', hb', ⟨t, ht, hon.startTime, hworker⟩, t', ht', hcount.trans (by decide)⟩

end Bench
end LogicDecode
