import LogicDecode.Run.Worker

/-!
# Storing marks

Where a mark goes, and whether it may go there, depends on the rows and on what is stored in them, and
on nothing else of an output (`storeAll_sameRows`). So marks may be stored in any number of goes, while
other things change in between (`Files.append`).
-/

namespace LogicDecode

/-- Outputs with the same rows and the same marks in them. -/
structure SameRows (o o' : Output) : Prop where
  table : o.table = o'.table
  tracks : o.tracks = o'.tracks

namespace SameRows
variable {o o' o'' : Output}

theorem refl (o : Output) : SameRows o o := ⟨rfl, rfl⟩

theorem symm (h : SameRows o o') : SameRows o' o := ⟨h.table.symm, h.tracks.symm⟩

theorem trans (h : SameRows o o') (h' : SameRows o' o'') : SameRows o o'' :=
  ⟨h.table.trans h'.table, h.tracks.trans h'.tracks⟩

theorem noteUnlisted (o : Output) (m : Mark) (row : Row) (routing : Routing) :
    SameRows (o.noteUnlisted m row routing).1 o := by
  unfold Output.noteUnlisted
  split <;> exact ⟨rfl, rfl⟩

theorem obstacle? (h : SameRows o o') (row : Row) (m : Mark) : o.obstacle? row m = o'.obstacle? row m := by
  simp only [Output.obstacle?, Output.track?, h.tracks]

theorem file (h : SameRows o o') (row : Row) (m : Mark) : SameRows (o.file row m) (o'.file row m) :=
  ⟨h.table, by simp only [Output.file, h.tracks]⟩

/-- A mark is stored in the same row, or at fault for the same reason. -/
theorem store (h : SameRows o o') (m : Mark) :
    SameRows (o.store m).output (o'.store m).output ∧
      ((∃ b b', (o.store m).result = .ok b ∧ (o'.store m).result = .ok b') ∨
        ∃ f, (o.store m).result = .error f ∧ (o'.store m).result = .error f) := by
  unfold Output.store
  rw [h.table]
  cases o'.table.classify m.decoder m.cls with
  | none => exact ⟨h, .inr ⟨_, rfl, rfl⟩⟩
  | some found =>
    obtain ⟨row, routing⟩ := found
    have hnoted : SameRows (o.noteUnlisted m row routing).1 (o'.noteUnlisted m row routing).1 :=
      ((noteUnlisted o m row routing).trans h).trans (noteUnlisted o' m row routing).symm
    dsimp only
    rw [hnoted.obstacle? row m]
    split
    · exact ⟨hnoted.file row m, .inl ⟨_, _, rfl, rfl⟩⟩
    · exact ⟨hnoted, .inr ⟨_, rfl, rfl⟩⟩
    · exact ⟨hnoted, .inr ⟨_, rfl, rfl⟩⟩

end SameRows

/-- Storing marks in an output leads to the rows of another one, without a fault. -/
def Files (o : Output) (marks : List Mark) (o' : Output) : Prop :=
  ∃ b log, SameRows (Stack.storeAll marks o b log).1 o' ∧ (Stack.storeAll marks o b log).2.2.2 = none

theorem storeAll_cons {m : Mark} {rest : List Mark} {o : Output} {b : Broadcast} {log : List LogEntry}
    {t : Bool} (h : (o.store m).result = .ok t) :
    Stack.storeAll (m :: rest) o b log =
      Stack.storeAll rest (o.store m).output (if t then b.send .marks else b) (log ++ (o.store m).log) := by
  rcases hs : o.store m with ⟨o', more, result⟩
  rw [hs] at h
  cases h
  simp only [Stack.storeAll, hs]

theorem storeAll_cons_fault {m : Mark} {rest : List Mark} {o : Output} {b : Broadcast} {log : List LogEntry}
    {f : Fault} (h : (o.store m).result = .error f) :
    Stack.storeAll (m :: rest) o b log = ((o.store m).output, b, log ++ (o.store m).log, some f) := by
  rcases hs : o.store m with ⟨o', more, result⟩
  rw [hs] at h
  cases h
  simp only [Stack.storeAll, hs]

theorem storeAll_sameRows {o o' : Output} (h : SameRows o o') (marks : List Mark) (b b' : Broadcast)
    (log log' : List LogEntry) :
    SameRows (Stack.storeAll marks o b log).1 (Stack.storeAll marks o' b' log').1 ∧
      (Stack.storeAll marks o b log).2.2.2 = (Stack.storeAll marks o' b' log').2.2.2 := by
  induction marks generalizing o o' b b' log log' with
  | nil => exact ⟨h, rfl⟩
  | cons m rest ih =>
    obtain ⟨hnext, ⟨t, t', ht, ht'⟩ | ⟨f, hf, hf'⟩⟩ := h.store m
    · rw [storeAll_cons ht, storeAll_cons ht']
      exact ih hnext _ _ _ _
    · rw [storeAll_cons_fault hf, storeAll_cons_fault hf']
      exact ⟨hnext, rfl⟩

theorem storeAll_append {marks : List Mark} {o : Output} {b : Broadcast} {log : List LogEntry}
    (h : (Stack.storeAll marks o b log).2.2.2 = none) (more : List Mark) :
    ∃ b' log', Stack.storeAll (marks ++ more) o b log =
      Stack.storeAll more (Stack.storeAll marks o b log).1 b' log' := by
  induction marks generalizing o b log with
  | nil => exact ⟨b, log, rfl⟩
  | cons m rest ih =>
    cases hr : (o.store m).result with
    | ok t =>
      rw [storeAll_cons hr] at h
      rw [List.cons_append, storeAll_cons hr, storeAll_cons hr]
      exact ih h
    | error f =>
      rw [storeAll_cons_fault hr] at h
      cases h

/-- Storing changes nothing but the rows, the number of marks and the classes noted. -/
theorem storeAll_keeps (marks : List Mark) (o : Output) (b : Broadcast) (log : List LogEntry) :
    (Stack.storeAll marks o b log).1.decoded = o.decoded ∧ (Stack.storeAll marks o b log).1.error = o.error ∧
      (Stack.storeAll marks o b log).1.table = o.table := by
  have hnote : ∀ (o : Output) (m : Mark) (row : Row) (routing : Routing),
      (o.noteUnlisted m row routing).1.decoded = o.decoded ∧ (o.noteUnlisted m row routing).1.error = o.error ∧
        (o.noteUnlisted m row routing).1.table = o.table := by
    intro o m row routing
    unfold Output.noteUnlisted
    split <;> exact ⟨rfl, rfl, rfl⟩
  have hstore : ∀ (o : Output) (m : Mark), (o.store m).output.decoded = o.decoded ∧
      (o.store m).output.error = o.error ∧ (o.store m).output.table = o.table := by
    intro o m
    unfold Output.store
    split
    · exact ⟨rfl, rfl, rfl⟩
    · dsimp only
      split <;> exact hnote ..
  induction marks generalizing o b log with
  | nil => exact ⟨rfl, rfl, rfl⟩
  | cons m rest ih =>
    obtain ⟨hdecoded, herror, htable⟩ := hstore o m
    cases hr : (o.store m).result with
    | ok t =>
      rw [storeAll_cons hr]
      obtain ⟨h₁, h₂, h₃⟩ := ih (o.store m).output (if t then b.send .marks else b) (log ++ (o.store m).log)
      exact ⟨h₁.trans hdecoded, h₂.trans herror, h₃.trans htable⟩
    | error f =>
      rw [storeAll_cons_fault hr]
      exact ⟨hdecoded, herror, htable⟩

namespace Files
variable {o o' o'' : Output} {marks more : List Mark}

theorem nil (o : Output) : Files o [] o := ⟨.empty, [], .refl o, rfl⟩

theorem sameRows (h : Files o marks o') (b : Broadcast) (log : List LogEntry) :
    SameRows (Stack.storeAll marks o b log).1 o' ∧ (Stack.storeAll marks o b log).2.2.2 = none := by
  obtain ⟨b₀, log₀, hrows, hfault⟩ := h
  obtain ⟨hsame, hfault'⟩ := storeAll_sameRows (.refl o) marks b b₀ log log₀
  exact ⟨hsame.trans hrows, hfault'.trans hfault⟩

theorem append (h : Files o marks o') (h' : Files o' more o'') : Files o (marks ++ more) o'' := by
  obtain ⟨b, log, hrows, hfault⟩ := h
  obtain ⟨b', log', happend⟩ := storeAll_append hfault more
  obtain ⟨hsame, hfault'⟩ := storeAll_sameRows hrows more b' b' log' log'
  obtain ⟨hrows', hnone⟩ := h'.sameRows b' log'
  refine ⟨b, log, ?_, ?_⟩
  · rw [happend]
    exact hsame.trans hrows'
  · rw [happend, hfault', hnone]

theorem congr (h : Files o marks o') (hrows : SameRows o' o'') : Files o marks o'' := by
  obtain ⟨b, log, hsame, hfault⟩ := h
  exact ⟨b, log, hsame.trans hrows, hfault⟩

end Files

end LogicDecode
