import LogicDecode.CommandLine.Decode
import LogicDecode.Proofs.Constructing
import LogicDecode.Proofs.Opening
import Mathlib.Data.List.Nodup

/-!
# Stages on the probes of a capture

A command line puts probes of a capture on the channels of a stage. Every channel keeps the probe that it was given,
since no two of them have the same id, and the signals of the stage are nothing but probes. So the data lines that a
parallel decoder reads are the first eight probes of the list it is given.
-/

namespace LogicDecode

theorem Keyed.get?_map {α β : Type} (f : α → β) (xs : Keyed α) (k : String) :
    Keyed.get? (xs.map fun p => (p.1, f p.2)) k = (xs.get? k).map f := by
  induction xs with
  | nil => rfl
  | cons p xs ih =>
    rw [List.map_cons, Keyed.get?_cons, ih]
    obtain ⟨k', a⟩ := p
    rw [Keyed.get?_cons]
    split <;> rfl

theorem Keyed.mem_insert {α : Type} {k : String} {v : α} {xs : Keyed α} {p : String × α}
    (h : p ∈ Keyed.insert k v xs) : p = (k, v) ∨ p ∈ xs := by
  induction xs with
  | nil => simpa [Keyed.insert] using h
  | cons q xs ih =>
    obtain ⟨k', a⟩ := q
    unfold Keyed.insert at h
    split at h
    · rcases List.mem_cons.1 h with rfl | h
      · exact .inl rfl
      · exact .inr (List.mem_cons_of_mem _ h)
    · split at h
      · rcases List.mem_cons.1 h with rfl | h
        · exact .inl rfl
        · exact .inr h
      · rcases List.mem_cons.1 h with rfl | h
        · exact .inr (List.mem_cons_self ..)
        · exact (ih h).imp_right (List.mem_cons_of_mem _)

namespace Parallel

theorem toList_lineId (i : Nat) : (lineId i).toList = 'd' :: Nat.toDigits 10 i := by simp [lineId, toString]

theorem lineId_injective {i j : Nat} (h : lineId i = lineId j) : i = j := by
  have hlist := congrArg String.toList h
  rw [toList_lineId, toList_lineId, List.cons.injEq] at hlist
  have hread := congrArg (Nat.ofDigitChars 10 · 0) hlist.2
  simpa [Nat.ofDigitChars_toDigits] using hread

theorem clk_ne_lineId (i : Nat) : "clk" ≠ lineId i := by
  intro h
  have hlist := congrArg String.toList h
  rw [toList_lineId] at hlist
  cases hlist

end Parallel

theorem Header.length_names {f : HeaderFields} {firstBlock : Except CaptureError Nat} {header : Header}
    (h : ofFields f firstBlock = .ok header) : header.names.length = header.probes := by
  unfold ofFields at h
  obtain ⟨probes, -, h⟩ := exists_of_bind h
  obtain ⟨text, -, h⟩ := exists_of_bind h
  obtain ⟨samples, -, h⟩ := exists_of_bind h
  obtain ⟨blocks, -, h⟩ := exists_of_bind h
  dsimp only at h
  split at h
  · cases h
  split at h
  · split at h
    all_goals
      obtain ⟨blockSize, -, h⟩ := exists_of_bind h
      split at h
      · cases h
      · cases h
        simp
  · cases h

theorem Segment.unitSize_of_ofData {unitSize : Nat} {rate startTime : Float} {units : Bytes} {s : Segment}
    (h : ofData unitSize rate startTime units = .ok s) : s.unitSize = unitSize := by
  obtain ⟨s₀, hempty, h⟩ := exists_of_bind h
  unfold empty at hempty
  split at hempty
  · cases hempty
    cases happend : Segment.append ⟨unitSize, rate, startTime, #[], ‹_›⟩ units with
    | error e => rw [happend] at h; cases h
    | ok s' =>
      rw [happend] at h
      cases h
      obtain ⟨-, rfl⟩ := append_eq_ok.1 happend
      rfl
  · cases hempty

/-- All probes of a capture have names, and they are bits of its units. -/
structure Capture.Fitted (c : Capture) : Prop where
  names : c.header.names.length = c.header.probes
  probes : c.header.probes ≤ 8 * c.segment.unitSize

theorem Capture.fitted_of_ofArchive {archive : Archive} {c : Capture} (h : ofArchive archive = .ok c) : c.Fitted := by
  obtain ⟨header, hheader, h⟩ := exists_of_bind h
  obtain ⟨segment, hsegment, h⟩ := exists_of_bind h
  cases h
  obtain ⟨text, -, hheader⟩ := exists_of_bind hheader
  refine ⟨Header.length_names hheader, ?_⟩
  obtain ⟨size, -, hsegment⟩ := exists_of_bind hsegment
  dsimp only at hsegment
  split at hsegment
  · cases hsegment
  obtain ⟨rs, -, hsegment⟩ := exists_of_bind hsegment
  rw [Segment.unitSize_of_ofData hsegment, Header.unitSize]
  dsimp only
  omega

theorem Capture.Fitted.bit_lt {c : Capture} (hc : c.Fitted) {n : Nat} (h : n < c.header.names.length) :
    n < c.header.probes ∧ n < 8 * c.segment.unitSize := by
  have hnames := hc.names
  have hprobes := hc.probes
  omega

theorem Stage.channel?_setup (s : Stage) (id : String) : s.setup.channel? id = (s.signal? id).map (·.bit) :=
  Keyed.get?_map Signal.bit s.signals id

theorem Stage.exists_signal {s : Stage} {id : String} {n : Nat} (h : s.setup.channel? id = some n) :
    ∃ signal, s.signal? id = some signal ∧ signal.bit = n := by
  rw [channel?_setup] at h
  exact Option.map_eq_some_iff.1 h

section Signals
variable {c : Capture} {n : Nat} {signal : Signal}

theorem Capture.signal_eq_ok (h : c.signal n = .ok signal) :
    signal.bit = n ∧ signal.source = some 0 ∧ n < c.header.names.length := by
  unfold Capture.signal at h
  split at h
  · rename_i s hs
    cases h
    obtain ⟨hn, rfl⟩ := List.getElem?_eq_some_iff.1 hs
    simp [Capture.signals] at hn ⊢
    exact hn
  · cases h

end Signals

/-- The channels of a stage are those it had, and probes of a capture on channels of some ids. -/
structure Probed (c : Capture) (s : Stage) (probes : List (String × Nat)) (s' : Stage) : Prop where
  profile : s'.profile = s.profile
  options : s'.options = s.options
  given : ∀ p ∈ probes, ∃ signal, s'.signal? p.1 = some signal ∧ c.signal p.2 = .ok signal
  others : ∀ id, id ∉ probes.map Prod.fst → s'.signal? id = s.signal? id
  only : ∀ q ∈ s'.signals, q ∈ s.signals ∨ ∃ p ∈ probes, c.signal p.2 = .ok q.2

theorem probed_of_connectProbes {c : Capture} {s s' : Stage} {probes : List (String × Nat)}
    (hids : (probes.map Prod.fst).Nodup) (h : s.connectProbes c probes = .ok s') : Probed c s probes s' := by
  induction probes generalizing s with
  | nil =>
    cases h
    exact ⟨rfl, rfl, nofun, fun _ _ => rfl, fun q hq => .inl hq⟩
  | cons p probes ih =>
    unfold Stage.connectProbes at h
    rw [List.foldlM_cons] at h
    obtain ⟨s₁, hs₁, h⟩ := exists_of_bind h
    obtain ⟨signal, hsignal, hs₁⟩ := exists_of_bind hs₁
    cases hs₁
    rw [List.map_cons, List.nodup_cons] at hids
    have hrest := ih hids.2 h
    have hget : ∀ id, (s.connect p.1 signal).signal? id = if id = p.1 then some signal else s.signal? id := fun id =>
      Keyed.get?_insert ..
    refine ⟨hrest.profile, hrest.options, fun q hq => ?_, fun id hid => ?_, fun q hq => ?_⟩
    · rcases List.mem_cons.1 hq with rfl | hq
      · exact ⟨signal, by rw [hrest.others _ hids.1, hget, if_pos rfl], hsignal⟩
      · exact hrest.given q hq
    · rw [List.map_cons, List.mem_cons, not_or] at hid
      rw [hrest.others id hid.2, hget, if_neg hid.1]
    · rcases hrest.only q hq with hq | ⟨p', hp', hsignal'⟩
      · rcases Keyed.mem_insert hq with rfl | hq
        · exact .inr ⟨p, List.mem_cons_self .., hsignal⟩
        · exact .inl hq
      · exact .inr ⟨p', List.mem_cons_of_mem _ hp', hsignal'⟩

namespace ParallelArguments
variable {p : ParallelArguments}

theorem probes_eq (p : ParallelArguments) :
    p.probes = ("clk", p.clk) :: p.data.zipIdx.map fun d => (Parallel.lineId d.2, d.1) := rfl

theorem ids_probes (p : ParallelArguments) :
    p.probes.map Prod.fst = "clk" :: (List.range' 0 p.data.length).map Parallel.lineId := by
  rw [← List.zipIdx_map_snd 0 p.data, List.map_map]
  simp [probes_eq]

theorem nodup_probes (p : ParallelArguments) : (p.probes.map Prod.fst).Nodup := by
  rw [ids_probes, List.nodup_cons]
  refine ⟨fun h => ?_, List.Nodup.map (fun _ _ => Parallel.lineId_injective) List.nodup_range'⟩
  obtain ⟨i, -, hi⟩ := List.mem_map.1 h
  exact Parallel.clk_ne_lineId i hi.symm

/-- What a stage for some arguments asks for. -/
structure Asks (c : Capture) (p : ParallelArguments) (stage : Stage) : Prop where
  profile : stage.profile = Parallel.profile
  clk : stage.setup.channel? "clk" = some p.clk
  line : ∀ i, stage.setup.channel? (Parallel.lineId i) = p.data[i]?
  edge : stage.setup.textOr "clock_edge" "rising" = p.clockEdge
  probe : ∀ q ∈ stage.signals, q.2.source = some 0 ∧ q.2.bit < c.header.names.length

theorem asks_of_stage {c : Capture} {stage : Stage} (h : p.stage c = .ok stage) : Asks c p stage := by
  have hprobed := probed_of_connectProbes p.nodup_probes h
  have hbit : ∀ {id n}, (id, n) ∈ p.probes → stage.setup.channel? id = some n := by
    intro id n hmem
    obtain ⟨signal, hsignal, hprobe⟩ := hprobed.given _ hmem
    rw [Stage.channel?_setup, hsignal, Option.map_some, (Capture.signal_eq_ok hprobe).1]
  refine ⟨hprobed.profile, hbit (by rw [probes_eq]; exact List.mem_cons_self ..), fun i => ?_, ?_, fun q hq => ?_⟩
  · cases hi : p.data[i]? with
    | some n =>
      refine hbit ?_
      rw [probes_eq]
      refine List.mem_cons_of_mem _ (List.mem_map.2 ⟨(n, i), ?_, rfl⟩)
      exact List.mem_zipIdx_iff_getElem?.2 hi
    | none =>
      have hno : Parallel.lineId i ∉ p.probes.map Prod.fst := by
        rw [ids_probes, List.mem_cons, not_or]
        refine ⟨(Parallel.clk_ne_lineId i).symm, fun h => ?_⟩
        obtain ⟨j, hj, heq⟩ := List.mem_map.1 h
        rw [Parallel.lineId_injective heq] at hj
        rw [List.getElem?_eq_none_iff] at hi
        simp at hj
        omega
      rw [Stage.channel?_setup, hprobed.others _ hno]
      rfl
  · rw [Setup.textOr, Setup.option?, Stage.setup, hprobed.options]
    simp [Stage.setOption, Keyed.get?_insert]
  · rcases hprobed.only q hq with hq | ⟨d, -, hd⟩
    · cases hq
    · obtain ⟨hbit, hsource, hlt⟩ := Capture.signal_eq_ok hd
      exact ⟨hsource, hbit ▸ hlt⟩

namespace Asks
variable {c : Capture} {stage : Stage} {id : String} {n : Nat}

theorem probe_of_signal? (h : Asks c p stage) {signal : Signal} (hid : stage.signal? id = some signal) :
    signal.source = some 0 ∧ signal.bit < c.header.names.length := by
  obtain ⟨q, hq, rfl⟩ := List.mem_map.1 (Keyed.mem_of_get? hid)
  exact h.probe q hq

theorem lt_of_channel? (h : Asks c p stage) (hid : stage.setup.channel? id = some n) :
    n < c.header.names.length := by
  obtain ⟨signal, hsignal, rfl⟩ := Stage.exists_signal hid
  exact (h.probe_of_signal? hsignal).2

theorem firstSignal? (h : Asks c p stage) : ∃ signal, stage.firstSignal? = some signal ∧ signal.source = some 0 := by
  obtain ⟨signal, hsignal, -⟩ := Stage.exists_signal h.clk
  refine ⟨signal, ?_, (h.probe_of_signal? hsignal).1⟩
  rw [Stage.firstSignal?, h.profile, Profile.channels, Parallel.profile]
  simp [hsignal]

theorem wired (h : Asks c p stage) (hc : c.Fitted) : Wired c.segment.unitSize [stage] := by
  intro s hs q hq
  rw [List.mem_singleton.1 hs] at hq
  exact (hc.bit_lt (h.probe q hq).2).2

end Asks

end ParallelArguments

end LogicDecode
