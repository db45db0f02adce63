import LogicDecode.Proofs.Handing
import LogicDecode.Trial.Decoders

/-!
# Blocks of the right size

A started session hands a block that begins at its next sample to its instances if the block holds as many bytes
as its range says (`Block.Exact`), and calls none of them otherwise (`Session.handedOver_iff_exact`). The size
that a range calls for is counted in 64 bits, though, before anything else is looked at. Where it does not fit
the call ends in a fault, also for ranges that no bytes could fill.
-/

namespace LogicDecode

namespace Block

/-- The samples that a block is said to hold, counted as bytes; none if the range ends before it begins. -/
def bytes (b : Block) : Nat := (b.stop - b.start) * b.unitSize

/-- A block is what its range says: it does not end before it begins, and holds a unit for each of its samples. -/
structure Exact (b : Block) : Prop where
  ordered : b.start ≤ b.stop
  unitSize_pos : 0 < b.unitSize
  size : b.data.size = b.bytes

instance (b : Block) : Decidable b.Exact :=
  decidable_of_iff (b.start ≤ b.stop ∧ 0 < b.unitSize ∧ b.data.size = b.bytes)
    ⟨fun ⟨h, hpos, hsize⟩ => ⟨h, hpos, hsize⟩, fun h => ⟨h.ordered, h.unitSize_pos, h.size⟩⟩

end Block

namespace Session
variable {σ : Type} [Protocol σ] {s : Session σ} {b : Block}

/-- The instances that take samples are called with the chunk of a block, one after the other: all of them, or
those up to one where a decoder refuses what it is given. -/
def HandedOver (s : Session σ) (b : Block) : Prop :=
  ∃ k, servedOf (s.logOf b) = ((Flow.ofInstances s.instances).roots.take k).map (·, b.chunk) ∧
    ((s.take b).outcome = .ok () ∧ k = (Flow.ofInstances s.instances).roots.length ∨
      0 < k ∧ ∃ e i call, (s.take b).outcome = .error (.refused e) ∧ .called i call (.error e) ∈ s.logOf b)

omit [Protocol σ] in
theorem accept_of_exact (hs : s.started = true) (hnext : s.next = none ∨ s.next = some b.start) (h : b.Exact)
    (hsize : b.data.size < wordBound) : s.accept b.start b.stop b.data.size b.unitSize = .ok () := by
  rw [h.size] at hsize
  exact accept_of_size hs hnext h.ordered h.unitSize_pos h.size hsize

omit [Protocol σ] in
/-- A block that is not what its range says is turned away with the size that the range calls for, or with a fault
if that does not fit. -/
theorem accept_of_not_exact (hs : s.started = true) (hnext : s.next = none ∨ s.next = some b.start)
    (h : ¬ b.Exact) : s.accept b.start b.stop b.data.size b.unitSize = .error
      (if b.bytes < wordBound then .refused (.chunkSize b.bytes b.data.size) else .fault .overflow) := by
  rw [accept_eq hs hnext, checkedMul]
  change Outcome.check (if b.bytes < wordBound then .ok b.bytes else .error .overflow) >>= _ = _
  split
  · refine if_pos ?_
    simp only [Bool.or_eq_true, decide_eq_true_eq]
    refine Decidable.byContradiction fun hnot => h ?_
    rw [not_or, not_or, not_not] at hnot
    exact ⟨by omega, by omega, hnot.2⟩
  · rfl

theorem handedOver_of_accept (haccept : s.accept b.start b.stop b.data.size b.unitSize = .ok ()) :
    s.HandedOver b := by
  obtain ⟨-, -, -, houtcome, hlog⟩ := take_delivered haccept
  obtain ⟨k, hserved, hall, hpos⟩ := Watched.servedOf_run (c := b.chunk) (Steady.init s.instances) rfl
  refine ⟨k, hlog ▸ hserved, ?_⟩
  cases hend : (s.take b).outcome with
  | ok => exact .inl ⟨rfl, hall (houtcome.1 hend)⟩
  | error f =>
    obtain ⟨e, i, call, rfl, hcall⟩ := refused_of_accept haccept hend
    refine .inr ⟨hpos fun hnone => ?_, e, i, call, rfl, hcall⟩
    -- where no instance takes samples nothing happens that could be refused
    have hwatch : s.watch b = ⟨Flow.ofInstances s.instances, []⟩ := congrArg (List.foldl _ _) hnone
    rw [houtcome.2 (by rw [hwatch]; rfl)] at hend
    cases hend

/-- A session that expects a block hands it over if and only if it is what its range says. Any other block calls no
instance and leaves the session as it was. The call ends in a fault for the blocks whose size, as the range calls for
it, does not fit in 64 bits, and for no others. -/
theorem handedOver_iff_exact (s : Session σ) (hs : s.started = true) (b : Block)
    (hnext : s.next = none ∨ s.next = some b.start) (hsize : b.data.size < wordBound) :
    (s.HandedOver b ↔ b.Exact) ∧
      (¬ b.Exact → s.logOf b = [] ∧ s.take b = ⟨s, [], .error
        (if b.bytes < wordBound then .refused (.chunkSize b.bytes b.data.size) else .fault .overflow)⟩) ∧
      ((∃ f, (s.take b).outcome = .error (.fault f)) ↔ wordBound ≤ b.bytes) := by
  have haway (h : ¬ b.Exact) := take_turned_away (accept_of_not_exact hs hnext h)
  refine ⟨⟨fun hover => Decidable.byContradiction fun h => ?_, fun h => ?_⟩,
    fun h => ⟨(haway h).2, (haway h).1⟩, ?_, ?_⟩
  · obtain ⟨htake, hlog⟩ := haway h
    obtain ⟨k, -, ⟨hok, -⟩ | ⟨-, e, i, call, -, hcall⟩⟩ := hover
    · rw [htake] at hok
      cases hok
    · rw [hlog] at hcall
      cases hcall
  · exact handedOver_of_accept (accept_of_exact hs hnext h hsize)
  · rintro ⟨f, hf⟩
    by_cases h : b.Exact
    · obtain ⟨e, -, -, he, -⟩ := refused_of_accept (accept_of_exact hs hnext h hsize) hf
      cases he
    · refine Nat.le_of_not_lt fun hlt => ?_
      rw [(haway h).1, if_pos hlt] at hf
      cases hf
  · intro hle
    have h : ¬ b.Exact := fun h => absurd h.size (by omega)
    refine ⟨.overflow, ?_⟩
    rw [(haway h).1, if_neg (Nat.not_lt.2 hle)]

/-- A range of 2^63 samples of two bytes each, with no bytes at all, ends in a fault; one of 2^62 is refused. -/
theorem handedOver_iff_exact_huge :
    let s : Session Trial := ⟨Trial.registry, [⟨"high", .high 0 0, none⟩], 0, true, true, none⟩
    ¬ s.HandedOver ⟨0, 2 ^ 63, #[], 2⟩ ∧ s.take ⟨0, 2 ^ 63, #[], 2⟩ = ⟨s, [], .error (.fault .overflow)⟩ ∧
      s.take ⟨0, 2 ^ 62, #[], 2⟩ = ⟨s, [], .error (.refused (.chunkSize (2 ^ 63) 0))⟩ := by
  intro s
  obtain ⟨hiff, haway, -⟩ := s.handedOver_iff_exact rfl ⟨0, 2 ^ 63, #[], 2⟩ (.inl rfl) (by decide)
  obtain ⟨-, haway', -⟩ := s.handedOver_iff_exact rfl ⟨0, 2 ^ 62, #[], 2⟩ (.inl rfl) (by decide)
  refine ⟨fun hover => absurd (hiff.1 hover) (by decide), (haway (by decide)).2, (haway' (by decide)).2⟩

end Session
end LogicDecode
