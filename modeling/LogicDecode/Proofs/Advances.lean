import LogicDecode.Proofs.Chains

/-!
# Findings advance with the samples

All that a decoder of the library keeps of earlier samples is the word that it is in, and what it finds
next begins where that word began, or later. So its findings are in order and do not reach behind the
samples taken, however these were cut (`Builtin.advances_decode`), and neither do the marks of a chain
(`Paced.run`). Channels need not be bits of the unit for this.
-/

namespace LogicDecode

theorem getD_le_of_lt {p : Option Nat} {i : Nat} (h : ∀ a ∈ p, a < i) : p.getD i ≤ i := by
  cases p with
  | none => exact Nat.le_refl i
  | some a => exact Nat.le_of_lt (h a rfl)

/-- What is found from sample `i` on and below `j`, if a word that began at `p` is unfinished at first and one
that began at `q` at last. -/
structure Advances (i j : Nat) (p q : Option Nat) (fs : List Finding) : Prop where
  le : i ≤ j
  begun : ∀ a ∈ q, a < j
  since : p.getD i ≤ q.getD j
  sorted : fs.Pairwise fun a b => a.start ≤ b.start
  within : ∀ f ∈ fs, p.getD i ≤ f.start ∧ f.start ≤ q.getD j ∧ f.start < f.stop ∧ f.stop ≤ j

namespace Advances
variable {i j k : Nat} {p q r : Option Nat} {fs gs : List Finding}

theorem idle (h : ∀ a ∈ p, a < i) (hle : i ≤ j) : Advances i j p p [] := by
  refine ⟨hle, fun a ha => Nat.lt_of_lt_of_le (h a ha) hle, ?_, .nil, nofun⟩
  cases p with
  | none => exact hle
  | some a => exact Nat.le_refl a

theorem trans (h : Advances i j p q fs) (h' : Advances j k q r gs) : Advances i k p r (fs ++ gs) := by
  refine ⟨Nat.le_trans h.le h'.le, h'.begun, Nat.le_trans h.since h'.since, ?_, fun f hf => ?_⟩
  · refine List.pairwise_append.2 ⟨h.sorted, h'.sorted, fun a ha b hb => ?_⟩
    exact Nat.le_trans (h.within a ha).2.1 (h'.within b hb).1
  · have hle := h'.le
    have hfirst := h.since
    have hsecond := h'.since
    rcases List.mem_append.1 hf with hf | hf
    · have := h.within f hf
      omega
    · have := h'.within f hf
      omega

theorem scan {σ : Type} {step : σ → Nat → σ × List Finding} (begun? : σ → Option Nat)
    (hstep : ∀ s i, (∀ a ∈ begun? s, a < i) → Advances i (i + 1) (begun? s) (begun? (step s i).1) (step s i).2)
    (s : σ) (sample count : Nat) (hs : ∀ a ∈ begun? s, a < sample) :
    Advances sample (sample + count) (begun? s) (begun? (scan step s sample count).1) (scan step s sample count).2 := by
  induction count generalizing s sample with
  | zero => exact .idle hs (Nat.le_refl _)
  | succ n ih =>
    have hfirst := hstep s sample hs
    have hrest := ih (step s sample).1 (sample + 1) hfirst.begun
    rw [Nat.add_right_comm, Nat.add_assoc] at hrest
    rw [scan_succ]
    exact hfirst.trans hrest

end Advances

namespace Spi
variable (d : Spi) {i : Nat} (level : Nat → Bool)

/-- The first sample of the word so far, if it has bits. -/
def begun? : Option Nat := if d.word.bits = 0 then none else some d.word.start

variable {d}

theorem advances_select (h : ∀ a ∈ d.begun?, a < i) :
    Advances i i d.begun? (d.select i level).1.begun? (d.select i level).2 := by
  unfold select
  dsimp only
  split
  · exact .idle h (Nat.le_refl i)
  · refine ⟨Nat.le_refl i, nofun, ?_, ?_, fun f hf => ?_⟩
    · exact getD_le_of_lt h
    · split
      · exact List.pairwise_singleton ..
      · exact .nil
    · -- a word that is left with bits is warned of, from its first sample to this one
      split at hf
      · rename_i hwarn
        obtain rfl := List.mem_singleton.1 hf
        have hbits : d.word.bits ≠ 0 := by
          simp at hwarn
          omega
        have hbegun : d.begun? = some d.word.start := if_neg hbits
        have hlt := h _ hbegun
        rw [hbegun]
        exact ⟨Nat.le_refl _, Nat.le_of_lt hlt, hlt, Nat.le_refl i⟩
      · cases hf

theorem start_shift : (if d.word.bits = 0 then i else d.word.start) = d.begun?.getD i := by
  unfold begun?
  split <;> rfl

theorem span_of_mem_report {w : Word} {stop : Nat} {f : Finding} (hf : f ∈ d.report w stop) :
    f.start = w.start ∧ f.stop = stop := by
  unfold report at hf
  dsimp only at hf
  rcases List.mem_append.1 hf with hf | hf
  all_goals
    split at hf
    · obtain rfl := List.mem_singleton.1 hf
      exact ⟨rfl, rfl⟩
    · cases hf

theorem advances_shift (h : ∀ a ∈ d.begun?, a < i) :
    Advances i (i + 1) d.begun? (d.shift i level).1.begun? (d.shift i level).2 := by
  have hle := getD_le_of_lt h
  unfold shift
  dsimp only
  rw [start_shift]
  split
  · -- the word is complete, and all that is found of it spans the word
    refine ⟨Nat.le_succ i, nofun, Nat.le_succ_of_le hle, ?_, fun f hf => ?_⟩
    · refine List.pairwise_of_forall_mem_list fun a ha b hb => ?_
      exact Nat.le_of_eq ((span_of_mem_report ha).1.trans (span_of_mem_report hb).1.symm)
    · obtain ⟨hstart, hstop⟩ := span_of_mem_report hf
      rw [hstart, hstop]
      exact ⟨Nat.le_refl _, Nat.le_succ_of_le hle, Nat.lt_succ_of_le hle, Nat.le_refl _⟩
  · refine ⟨Nat.le_succ i, fun a ha => ?_, Nat.le_refl _, .nil, nofun⟩
    cases ha
    exact Nat.lt_succ_of_le hle

theorem advances_tick (h : ∀ a ∈ d.begun?, a < i) :
    Advances i (i + 1) d.begun? (d.tick i level).1.begun? (d.tick i level).2 := by
  unfold tick
  split
  · exact .idle h (Nat.le_succ i)
  · dsimp only
    split
    · exact .idle h (Nat.le_succ i)
    · exact advances_shift (d := { d with prevClk := some (level d.settings.clk) }) level h

theorem advances_step (h : ∀ a ∈ d.begun?, a < i) :
    Advances i (i + 1) d.begun? (d.step i level).1.begun? (d.step i level).2 := by
  have hselect := advances_select level h
  exact hselect.trans (advances_tick level hselect.begun)

end Spi

namespace Parallel
variable (d : Parallel) {i : Nat} (level : Nat → Bool)

/-- The sample of the word that waits for the next transition. -/
def begun? : Option Nat := d.pending.map Prod.fst

variable {d}

theorem advances_latch (h : ∀ a ∈ d.begun?, a < i) :
    Advances i (i + 1) d.begun? (d.latch i level).1.begun? (d.latch i level).2 := by
  unfold latch
  cases hp : d.pending with
  | none =>
    have hnone : d.begun? = none := by rw [begun?, hp]; rfl
    rw [hnone]
    exact ⟨Nat.le_succ i, fun a ha => by cases ha; exact Nat.lt_succ_self i, Nat.le_refl i, .nil, nofun⟩
  | some word =>
    have hbegun : d.begun? = some word.1 := by rw [begun?, hp]; rfl
    have hlt := h _ hbegun
    rw [hbegun]
    refine ⟨Nat.le_succ i, fun a ha => by cases ha; exact Nat.lt_succ_self i, Nat.le_of_lt hlt, List.pairwise_singleton ..,
      fun f hf => ?_⟩
    obtain rfl := List.mem_singleton.1 hf
    exact ⟨Nat.le_refl _, Nat.le_of_lt hlt, hlt, Nat.le_succ i⟩

theorem advances_step (h : ∀ a ∈ d.begun?, a < i) :
    Advances i (i + 1) d.begun? (d.step i level).1.begun? (d.step i level).2 := by
  unfold step
  dsimp only
  split
  · exact .idle h (Nat.le_succ i)
  · split
    · exact advances_latch (d := { d with prevClk := some (level d.settings.clk) }) level h
    · exact .idle h (Nat.le_succ i)

end Parallel

namespace Builtin

/-- The first sample of the word that a decoder is in. -/
def begun? : Builtin → Option Nat
  | .spi d => d.begun?
  | .parallel d => d.begun?

theorem begun?_start (b : Builtin) (hz : Nat) : (Protocol.start b hz).begun? = none := by
  cases b <;> rfl

theorem advances_step (b : Builtin) (i : Nat) (level : Nat → Bool) (h : ∀ a ∈ b.begun?, a < i) :
    Advances i (i + 1) b.begun? (b.step i level).1.begun? (b.step i level).2 := by
  cases b with
  | spi d => exact Spi.advances_step level h
  | parallel d => exact Parallel.advances_step level h

theorem advances_decode (b : Builtin) (c : Chunk) (h : ∀ a ∈ b.begun?, a < c.start) :
    ∃ b' fs, Protocol.decode b c = ⟨b', .ok fs⟩ ∧ Advances c.start c.stop b.begun? b'.begun? fs :=
  ⟨_, _, Sampling.decode_eq b c,
    .scan begun? (fun b i hb => advances_step b i (c.level i) hb) b c.start c.size h⟩

end Builtin

/-- A chain has taken the samples below `n` and made the marks `ms` of them. -/
structure Paced (n : Nat) (xs : List (Instance Builtin)) (ms : List Mark) : Prop where
  chained : Chained xs
  silent : xs = [] → ms = []
  head : ∀ x ∈ xs.head?, ∃ fs, ms = fs.map (Finding.sign x.decoder) ∧ Advances 0 n none x.state.begun? fs

namespace Paced
variable {n : Nat} {xs : List (Instance Builtin)} {ms : List Mark}

theorem exists_findings (h : Paced n xs ms) (hms : ms ≠ []) : ∃ x ∈ xs, ∃ fs,
    ms = fs.map (Finding.sign x.decoder) ∧ Advances 0 n none x.state.begun? fs := by
  cases xs with
  | nil => exact absurd (h.silent rfl) hms
  | cons x xs => exact ⟨x, List.mem_cons_self .., h.head x rfl⟩

theorem sorted (h : Paced n xs ms) : ms.Pairwise fun a b => a.start ≤ b.start := by
  by_cases hms : ms = []
  · rw [hms]
    exact .nil
  · obtain ⟨x, -, fs, rfl, hfs⟩ := h.exists_findings hms
    exact List.pairwise_map.2 hfs.sorted

theorem within (h : Paced n xs ms) : ∀ m ∈ ms, m.start < m.stop ∧ m.stop ≤ n ∧ ∃ x ∈ xs, x.decoder = m.decoder := by
  intro m hm
  obtain ⟨x, hx, fs, rfl, hfs⟩ := h.exists_findings (List.ne_nil_of_mem hm)
  obtain ⟨f, hf, rfl⟩ := List.mem_map.1 hm
  obtain ⟨-, -, hlt, hle⟩ := hfs.within f hf
  exact ⟨hlt, hle, x, hx, rfl⟩

theorem run (h : Paced n xs ms) (c : Chunk) (hc : c.start = n) : ∃ xs' new,
    (Flow.ofInstances xs).run c = ⟨xs', new.toArray, none⟩ ∧ Paced c.stop xs' (ms ++ new) ∧
      xs'.map Instance.decoder = xs.map Instance.decoder := by
  subst hc
  cases xs with
  | nil =>
    rw [h.silent rfl]
    exact ⟨[], [], Flow.run_nil c, ⟨h.chained, fun _ => rfl, fun y hy => nomatch hy⟩, rfl⟩
  | cons x xs =>
    obtain ⟨fs, rfl, hfs⟩ := h.head x rfl
    obtain ⟨b, gs, hdecode, hgs⟩ := x.state.advances_decode c hfs.begun
    refine ⟨_, _, Flow.run_chained h.chained hdecode, ⟨?_, nofun, fun y hy => ?_⟩, rfl⟩
    · exact h.chained.set_state b
    · cases hy
      exact ⟨fs ++ gs, (List.map_append ..).symm, hfs.trans hgs⟩

end Paced

end LogicDecode
