import LogicDecode.Proofs.Backing
import LogicDecode.Proofs.Feeding
import LogicDecode.Proofs.Probes

/-!
# Words of a parallel bus in a capture

What a stage with a parallel decoder makes of a capture: marks at the transitions of the clock, each of the value that
is on the data lines at its first sample (`Parallel.Shows`). The lines that count are the first eight of those that
were given, so a level of the ninth line or one behind it is in no mark.
-/

namespace LogicDecode

namespace Parallel
variable {stage : Stage} {level : Nat → Nat → Bool} {n : Nat} {m : Mark}

theorem create_eq_ok {b b' : Session Builtin} {i : Nat} (hregistry : b.registry = Builtin.registry)
    (hprofile : stage.profile = profile) (h : b.create stage.setup = .ok (b', i)) :
    ∃ d : Parallel, ofSetup stage.setup = .ok d ∧
      b' = { b with instances := b.instances ++ [⟨profile.id, .parallel d, none⟩] } := by
  obtain ⟨r, state, hr, hstate, -, rfl⟩ := Session.create_eq_ok h
  have hid : stage.setup.decoder = "parallel" := congrArg Profile.id hprofile
  rw [hregistry, hid] at hr
  cases hr
  obtain ⟨d, hd, rfl⟩ := exists_of_map hstate
  exact ⟨d, hd, rfl⟩

/-- The session of a stage with a parallel decoder. -/
theorem instances_of_openChain (hprofile : stage.profile = profile) {hz : Nat} {s : Session Builtin}
    (h : openChain [stage] hz = some s) :
    ∃ d : Parallel, ofSetup stage.setup = .ok d ∧ s.instances = [⟨profile.id, .parallel d.start, none⟩] := by
  unfold openChain at h
  simp only [Stack.build, Engine.create, Host.create, Engine.openSession, Host.ofRegistry] at h
  rcases hcreate : (Session.ofRegistry Builtin.registry).create stage.setup with e | ⟨s', i⟩
  · rw [hcreate] at h
    cases e <;> cases h
  · obtain ⟨d, hd, rfl⟩ := create_eq_ok rfl hprofile hcreate
    rw [hcreate] at h
    cases h
    exact ⟨d, hd, rfl⟩

theorem sweep_parallel (d : Parallel) (sample : Nat) :
    (Sampling.sweep level (Builtin.parallel d) sample n).2 = (Sampling.sweep level d sample n).2 := by
  have hmap : Sampling.sweep level (Builtin.parallel d) sample n =
      (.parallel (Sampling.sweep level d sample n).1, (Sampling.sweep level d sample n).2) :=
    scan_map Builtin.parallel (fun _ _ => rfl) d sample n
  rw [hmap]

/-- The marks of a stage with a parallel decoder are what the samples mean to it. -/
theorem mem_meaning_of_marksOf (hprofile : stage.profile = profile) {hz : Nat} (hm : m ∈ marksOf [stage] hz level n) :
    ∃ t, Requested stage.setup t ∧ ∃ f ∈ t.meaning level 0 n, m = f.sign profile.id := by
  unfold marksOf at hm
  cases hopen : openChain [stage] hz with
  | none => rw [hopen] at hm; cases hm
  | some s =>
    obtain ⟨d, hd, hinstances⟩ := instances_of_openChain hprofile hopen
    have hrequested : Requested stage.setup d.settings := (made stage.setup).made d hd
    have hlines : 0 < d.settings.lines.length := by
      obtain ⟨top, -, heq⟩ := hrequested.eq
      rw [heq]
      simp [requested]
    rw [hopen] at hm
    dsimp only at hm
    rw [hinstances, marksIn] at hm
    obtain ⟨f, hf, rfl⟩ := List.mem_map.1 hm
    rw [sweep_parallel, d.sweep_start level 0 n hlines, Nat.zero_add] at hf
    exact ⟨d.settings, hrequested, f, hf, rfl⟩

/-- The lines of a decoder are the first eight of those that it was given. -/
theorem lines_requested {s : Setup} {t : Settings} (h : Requested s t) {data : List Nat}
    (hdata : ∀ i, s.channel? (lineId i) = data[i]?) : t.lines = (data.take maxLines).map some := by
  obtain ⟨top, hlast, heq⟩ := h.eq
  have htop : top < data.length := by
    have hassigned := hlast.assigned
    rw [hdata] at hassigned
    simpa using hassigned
  have hend : top + 1 < maxLines → data.length ≤ top + 1 := fun hlt => by
    have hnone := hlast.behind (top + 1) (Nat.lt_succ_self _) hlt
    rwa [hdata, List.getElem?_eq_none_iff] at hnone
  have hlt := hlast.lt
  rw [heq, requested]
  dsimp only
  refine List.ext_getElem? fun i => ?_
  rw [List.getElem?_map, List.getElem?_map, List.getElem?_take]
  by_cases hi : i < top + 1
  · rw [List.getElem?_range hi, Option.map_some, hdata, if_pos (by omega), List.getElem?_eq_getElem (by omega)]
    rfl
  · rw [List.getElem?_eq_none (by simpa using hi)]
    split
    · rw [List.getElem?_eq_none (by omega)]
      rfl
    · rfl

theorem Settings.testBit_valueAt (t : Settings) (level : Nat → Nat → Bool) (i k : Nat) :
    (t.valueAt level i).testBit k = (t.lines[k]?.getD none).any (level i) := by
  unfold valueAt
  by_cases hk : k < t.lines.length
  · rw [Nat.testBit_ofBits_lt _ _ hk, List.getElem?_eq_getElem hk]
    rfl
  · rw [Nat.testBit_ofBits_ge _ _ (Nat.le_of_not_lt hk), List.getElem?_eq_none (Nat.le_of_not_lt hk)]
    rfl

theorem Settings.exists_of_mem_meaning {t : Settings} {f : Finding} (hf : f ∈ t.meaning level 0 n) :
    ∃ next, f = t.wordAt level f.start next ∧ 0 < f.start ∧ f.start < n ∧
      t.strobe.triggered (level (f.start - 1) t.clk) (level f.start t.clk) = true := by
  obtain ⟨i, hi, next, -, rfl⟩ := mem_eachPair hf
  obtain ⟨hrange, hlatches⟩ := List.mem_filter.1 hi
  have hlt : i < n := by
    have hend := (List.mem_range'_1.1 hrange).2
    rwa [Nat.sub_zero, Nat.zero_add] at hend
  have hpos : 0 < i := by
    simp [latchesAt] at hlatches
    exact hlatches.1.1
  rw [t.latchesAt_of_lt hpos] at hlatches
  exact ⟨next, rfl, hpos, hlt, hlatches⟩

/-- The settings of a decoder for some arguments. -/
def settingsOf (p : ParallelArguments) : Settings := ⟨p.clk, (p.data.take maxLines).map some, strobeOf p.clockEdge⟩

theorem length_lines_settingsOf (p : ParallelArguments) :
    (settingsOf p).lines.length = min maxLines p.data.length := by simp [settingsOf]

section Asked
variable {c : Capture} {p : ParallelArguments}

theorem eq_settingsOf (hp : p.Asks c stage) {t : Settings} (ht : Requested stage.setup t) : t = settingsOf p := by
  have hclk : t.clk = p.clk := Option.some.inj (ht.clk.symm.trans hp.clk)
  have hstrobe : t.strobe = strobeOf p.clockEdge := by
    obtain ⟨top, -, heq⟩ := ht.eq
    rw [heq, ← hp.edge]
    rfl
  rw [settingsOf, ← hclk, ← hstrobe, ← lines_requested ht hp.line]

/-- A mark at a transition of the clock, of the value that is then on the first eight of the lines. -/
structure Shows (c : Capture) (p : ParallelArguments) (m : Mark) (value : Nat) : Prop where
  lt : value < 2 ^ min maxLines p.data.length
  texts : m.texts = [String.ofList (hexDigits ((min maxLines p.data.length + 3) / 4) value)]
  latches : 0 < m.start ∧ ∃ before now, c.level p.clk (m.start - 1) = .ok before ∧ c.level p.clk m.start = .ok now ∧
    (strobeOf p.clockEdge).triggered before now = true
  bit (k probe : Nat) (hk : p.data[k]? = some probe) : ∃ high, c.level probe m.start = .ok high ∧
    value.testBit k = (decide (k < maxLines) && high)

theorem shows_of_mem_meaning (hc : c.Fitted) (hp : p.Asks c stage) {f : Finding}
    (hf : f ∈ (settingsOf p).meaning c.segment.levels 0 c.segment.size) : ∃ value, Shows c p (f.sign profile.id) value := by
  obtain ⟨next, hword, hpos, hlt, hlatches⟩ := Settings.exists_of_mem_meaning hf
  have hlevel : ∀ {id probe s}, stage.setup.channel? id = some probe → s < c.segment.size →
      c.level probe s = .ok (c.segment.levels s probe) := by
    intro id probe s hid hs
    obtain ⟨hprobe, hbit⟩ := hc.bit_lt (hp.lt_of_channel? hid)
    exact Capture.level_eq_unitBit hprobe hbit hs
  have hbefore : f.start - 1 < c.segment.size := Nat.lt_of_le_of_lt (Nat.sub_le ..) hlt
  have hlength := length_lines_settingsOf p
  refine ⟨(settingsOf p).valueAt c.segment.levels f.start, ?_, ?_,
    ⟨hpos, _, _, hlevel hp.clk hbefore, hlevel hp.clk hlt, hlatches⟩, fun k probe hk => ?_⟩
  · rw [← hlength]
    exact Nat.ofBits_lt_two_pow _
  · rw [← hlength]
    exact congrArg Finding.texts hword
  · refine ⟨_, hlevel ((hp.line k).trans hk) hlt, ?_⟩
    rw [Settings.testBit_valueAt, settingsOf, List.getElem?_map, List.getElem?_take]
    by_cases hline : k < maxLines
    · rw [if_pos hline, hk, decide_eq_true hline]
      rfl
    · rw [if_neg hline, decide_eq_false hline]
      rfl

/-- A mark of the samples of a loaded capture. -/
theorem shows_of_marksOf (hc : c.Fitted) (hp : p.Asks c stage) {hz : Nat}
    (hm : m ∈ marksOf [stage] hz c.segment.levels c.segment.size) : ∃ value, Shows c p m value := by
  obtain ⟨t, ht, f, hf, rfl⟩ := mem_meaning_of_marksOf hp.profile hm
  rw [eq_settingsOf hp ht] at hf
  exact shows_of_mem_meaning hc hp hf

end Asked

end Parallel

end LogicDecode
