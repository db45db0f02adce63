import LogicDecode.CommandLine.Report
import LogicDecode.Proofs.Capturing

/-!
# Stored marks come from the samples

Whatever becomes of a run of the library's decoders, every mark that it has stored is one that its decoders make of the
samples of the segment (`drawn_of_run`): what is stored are the marks in the samples that count as decoded (`RunInv`).
-/

namespace LogicDecode

/-- All stored marks, row by row. -/
def Output.marks (o : Output) : List Mark := o.tracks.flatMap fun p => p.2.marks.toList

theorem mem_modifyKey {κ α : Type} [DecidableEq κ] {k : κ} {f : α → α} {xs : List (κ × α)} {p : κ × α}
    (h : p ∈ modifyKey k f xs) : p ∈ xs ∨ ∃ a, (k, a) ∈ xs ∧ p = (k, f a) := by
  induction xs with
  | nil => cases h
  | cons q xs ih =>
    obtain ⟨k', a⟩ := q
    unfold modifyKey at h
    split at h
    · rename_i hk
      subst hk
      rcases List.mem_cons.1 h with rfl | h
      · exact .inr ⟨a, List.mem_cons_self .., rfl⟩
      · exact .inl (List.mem_cons_of_mem _ h)
    · rcases List.mem_cons.1 h with rfl | h
      · exact .inl (List.mem_cons_self ..)
      · rcases ih h with h | ⟨b, hb, rfl⟩
        · exact .inl (List.mem_cons_of_mem _ h)
        · exact .inr ⟨b, List.mem_cons_of_mem _ hb, rfl⟩

theorem Stack.mem_marks_of_marksOf {ε : Type} {s : Stack ε} {row : Row} {m : Mark} (h : m ∈ s.marksOf row) :
    m ∈ s.output.marks := by
  unfold Stack.marksOf Output.within at h
  split at h
  · rename_i track htrack
    rw [Track.within, Track.toList_collect, List.mem_append] at h
    have hm : m ∈ track.marks.toList := by
      rcases h with h | h
      · cases h
      · exact List.mem_of_mem_take (List.mem_of_mem_filter h)
    exact List.mem_flatMap.2 ⟨_, RowTable.mem_of_lookup htrack, hm⟩
  · cases h

section Output
variable {o : Output} {m n : Mark} {more : List Mark} {b : Broadcast} {log : List LogEntry}

theorem mem_marks_of_store (h : n ∈ (o.store m).output.marks) : n ∈ o.marks ∨ n = m := by
  have hnote : ∀ row routing, (o.noteUnlisted m row routing).1.tracks = o.tracks := by
    intro row routing
    unfold Output.noteUnlisted
    split <;> rfl
  unfold Output.store at h
  split at h
  · exact .inl h
  · dsimp only at h
    split at h
    · obtain ⟨p, hp, hn⟩ := List.mem_flatMap.1 h
      rcases mem_modifyKey hp with hp | ⟨t, ht, rfl⟩
      · rw [hnote] at hp
        exact .inl (List.mem_flatMap.2 ⟨p, hp, hn⟩)
      · rw [hnote] at ht
        simp only [Track.insert, Array.toList_push, List.mem_append, List.mem_singleton] at hn
        exact hn.imp_left fun hn => List.mem_flatMap.2 ⟨_, ht, hn⟩
    · rw [Output.marks, hnote] at h
      exact .inl h
    · rw [Output.marks, hnote] at h
      exact .inl h

theorem mem_marks_of_storeAll (h : n ∈ (Stack.storeAll more o b log).1.marks) : n ∈ o.marks ∨ n ∈ more := by
  induction more generalizing o b log with
  | nil => exact .inl h
  | cons m more ih =>
    have hhead : n ∈ (o.store m).output.marks → n ∈ o.marks ∨ n ∈ m :: more := by
      intro h
      rcases mem_marks_of_store h with h | rfl
      · exact .inl h
      · exact .inr (List.mem_cons_self ..)
    cases hr : (o.store m).result with
    | ok tell =>
      rw [storeAll_cons hr] at h
      rcases ih h with h | h
      · exact hhead h
      · exact .inr (List.mem_cons_of_mem _ h)
    | error f =>
      rw [storeAll_cons_fault hr] at h
      exact hhead h

end Output

theorem marksOf_mono {stages : List Stage} {hz n n' : Nat} {level : Nat → Nat → Bool} {m : Mark} (h : n ≤ n')
    (hm : m ∈ marksOf stages hz level n) : m ∈ marksOf stages hz level n' := by
  unfold marksOf at hm ⊢
  cases hopen : openChain stages hz with
  | none => rwa [hopen] at hm
  | some s =>
    rw [hopen] at hm
    dsimp only at hm ⊢
    obtain ⟨k, rfl⟩ := Nat.exists_eq_add_of_le h
    cases hx : s.instances with
    | nil => rwa [hx] at hm
    | cons x xs =>
      rw [hx] at hm
      rw [marksIn, Sampling.sweep_add, List.map_append]
      exact List.mem_append_left _ hm

theorem mem_of_files {stages : List Stage} {ms : List Mark} {o : Output} {m : Mark} (h : Files (blank stages) ms o)
    (hm : m ∈ o.marks) : m ∈ ms := by
  have hrows := (h.sameRows .empty []).1
  rw [Output.marks, ← hrows.tracks] at hm
  rcases mem_marks_of_storeAll hm with hm | hm
  · obtain ⟨p, hp, hm⟩ := List.mem_flatMap.1 hm
    obtain ⟨r, -, rfl⟩ := List.mem_map.1 hp
    cases hm
  · exact hm

/-- The marks that a run has stored, at any time, are made of samples of its segment. -/
theorem drawn_of_run {s t : Stack (Host Builtin)} {number : Nat} {first seg : Segment}
    (hregistry : s.engine.registry = Builtin.registry) (hcomplete : s.stages.all Stage.isComplete = true)
    (hwired : Wired first.unitSize s.stages)
    (h : Relation.ReflTransGen Stack.Proceeds ((s.launch (some (number, first))).1, first) (t, seg)) :
    ∃ hz, ∀ m ∈ t.output.marks, m ∈ marksOf s.stages hz seg.levels seg.size := by
  obtain ⟨hz, hlaunch⟩ := inv_launch hregistry hcomplete number first
  have hinv : RunInv s.stages hz first.unitSize t seg := hlaunch.run hwired h
  exact ⟨hz, fun m hm => marksOf_mono hinv.decoded_le (mem_of_files hinv.filed hm)⟩

end LogicDecode
