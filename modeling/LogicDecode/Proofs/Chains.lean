import LogicDecode.Delivery
import LogicDecode.Proofs.Samplers
import Mathlib.Tactic.Set

/-!
# Chains of the library's decoders

In a chain each instance but the first sits on the one before. The library's decoders make nothing of
marks, so what a chain does with samples is what its first instance does: before sample `n` its
instances are `swept level n`, and `marksIn level n` has been reported (`Flow.run_swept`).
-/

namespace LogicDecode

/-- Only the first instance takes samples. -/
def Chained {σ : Type} (xs : List (Instance σ)) : Prop := ∀ i x, xs[i]? = some x → (x.lower = none ↔ i = 0)

theorem Chained.set_state {σ : Type} {x : Instance σ} {xs : List (Instance σ)} (h : Chained (x :: xs)) (s : σ) :
    Chained ({ x with state := s } :: xs) := by
  intro i y hy
  cases i with
  | zero =>
    cases hy
    exact h 0 x rfl
  | succ i => exact h (i + 1) y hy

theorem Builtin.derive_eq (b : Builtin) (m : Mark) : Protocol.derive b m = ⟨b, .ok []⟩ := by
  cases b <;> rfl

/-- The instances when the first one has taken `n` samples. -/
def swept (level : Nat → Nat → Bool) (n : Nat) : List (Instance Builtin) → List (Instance Builtin)
  | [] => []
  | x :: xs => { x with state := (Sampling.sweep level x.state 0 n).1 } :: xs

/-- The marks that it has made of them. -/
def marksIn (level : Nat → Nat → Bool) (n : Nat) : List (Instance Builtin) → List Mark
  | [] => []
  | x :: _ => (Sampling.sweep level x.state 0 n).2.map (Finding.sign x.decoder)

/-- The channels that instances read are bits of a unit. -/
def InUnit (unitSize : Nat) (xs : List (Instance Builtin)) : Prop :=
  ∀ x ∈ xs, ∀ c ∈ x.state.channels, c < 8 * unitSize

section Swept
variable {level level' : Nat → Nat → Bool} {n : Nat} {xs : List (Instance Builtin)}

@[simp] theorem swept_zero : swept level 0 xs = xs := by
  cases xs <;> rfl

@[simp] theorem marksIn_zero : marksIn level 0 xs = [] := by
  cases xs <;> rfl

/-- Only levels of bits of the unit count, and only those of the samples taken. -/
theorem swept_congr {unitSize : Nat} (hinUnit : InUnit unitSize xs)
    (h : ∀ i c, i < n → c < 8 * unitSize → level i c = level' i c) :
    swept level n xs = swept level' n xs ∧ marksIn level n xs = marksIn level' n xs := by
  cases xs with
  | nil => exact ⟨rfl, rfl⟩
  | cons x xs =>
    have hsweep : Sampling.sweep level x.state 0 n = Sampling.sweep level' x.state 0 n :=
      Sampling.sweep_congr fun i c _ hi hc =>
        h i c (by omega) (hinUnit x (List.mem_cons_self ..) c hc)
    simp only [swept, marksIn, hsweep, and_self]

end Swept

namespace Flow
variable (f : Flow Builtin) (m : Mark)

theorem move_silent (i : Nat) : (f.move i fun s => Protocol.derive s m) = (f, []) := by
  unfold move
  split
  · rename_i x _ hx
    have hset : f.instances.set i x = f.instances := by
      obtain ⟨hlt, hget⟩ := List.getElem?_eq_some_iff.1 hx
      rw [← hget]
      exact List.set_getElem_self hlt
    simp only [Builtin.derive_eq, hset]
    rfl
  · rfl

theorem offer_silent (us : List Nat) : f.offer m us = (f, us.map fun u => (u, [])) := by
  induction us with
  | nil => rfl
  | cons u us ih => simp only [offer, move_silent, ih, List.map_cons]

theorem deliver_nil (depth l : Nat) : deliver depth f l [] = f := by
  cases depth <;> rfl

theorem deliver_silent (depth l : Nat) (marks : List Mark) :
    deliver (depth + 1) f l marks = marks.foldl report f := by
  -- nothing is made of a mark, so there is nothing to deliver above
  have hnone : ∀ (us : List Nat) (f : Flow Builtin),
      (us.map fun u => (u, ([] : List Mark))).foldl (fun f d => deliver depth f d.1 d.2) f = f := by
    intro us
    induction us with
    | nil => exact fun f => rfl
    | cons u us ih =>
      intro f
      rw [List.map_cons, List.foldl_cons, deliver_nil, ih]
  unfold deliver
  simp only [offer_silent, hnone]

theorem report_all (h : f.refusal = none) (marks : List Mark) :
    marks.foldl report f = { f with reported := f.reported ++ marks.toArray } := by
  induction marks generalizing f with
  | nil => simp
  | cons m marks ih =>
    have hreport : f.report m = { f with reported := f.reported.push m } := by
      unfold report
      rw [h]
    have hrest := ih { f with reported := f.reported.push m } h
    rw [List.foldl_cons, hreport, hrest]
    simp

variable {f}

theorem feed_silent (h : f.refusal = none) {i : Nat} {x : Instance Builtin} (hx : f.instances[i]? = some x)
    {c : Chunk} {s : Builtin} {fs : List Finding} (hd : Protocol.decode x.state c = ⟨s, .ok fs⟩) :
    f.feed c i = ⟨f.instances.set i { x with state := s },
      f.reported ++ (fs.map (Finding.sign x.decoder)).toArray, none⟩ := by
  obtain ⟨hlt, -⟩ := List.getElem?_eq_some_iff.1 hx
  have hmove : (f.move i fun s => Protocol.decode s c) =
      ({ f with instances := f.instances.set i { x with state := s } }, fs.map (Finding.sign x.decoder)) := by
    simp [move, h, hx, hd, Sink.putAll, Sink.empty]
  obtain ⟨k, hk⟩ : ∃ k, f.instances.length = k + 1 := ⟨f.instances.length - 1, by omega⟩
  have hall := report_all { f with instances := f.instances.set i { x with state := s } } h
    (fs.map (Finding.sign x.decoder))
  unfold feed
  rw [hmove]
  dsimp only
  rw [List.length_set, hk, deliver_silent, hall, h]

theorem roots_of_chained {x : Instance Builtin} {xs : List (Instance Builtin)} (h : Chained (x :: xs)) :
    (ofInstances (x :: xs)).roots = [0] := by
  have hhead : x.lower.isNone = true := Option.isNone_iff_eq_none.2 ((h 0 x rfl).2 rfl)
  have htail : ∀ (i : Nat) (y : Instance Builtin), xs[i]? = some y → y.lower.isNone = false := by
    intro i y hy
    have hne : y.lower ≠ none := fun hnone => Nat.succ_ne_zero i ((h (i + 1) y hy).1 hnone)
    exact Option.isNone_eq_false_iff.2 (Option.isSome_iff_ne_none.2 hne)
  unfold roots numbers ofInstances
  rw [List.length_cons, List.range_succ_eq_map]
  simp only [List.filter_cons, List.getElem?_cons_zero, hhead, if_true, List.filter_map]
  refine congrArg (0 :: ·) ?_
  refine List.map_eq_nil_iff.2 (List.filter_eq_nil_iff.2 fun i hi => ?_)
  have hlt := List.mem_range.1 hi
  simp [htail i xs[i] (List.getElem?_eq_getElem hlt), hlt]

theorem run_nil (c : Chunk) : (ofInstances ([] : List (Instance Builtin))).run c = ofInstances [] := by
  have hroots : (ofInstances ([] : List (Instance Builtin))).roots = [] := by
    unfold roots numbers ofInstances
    rw [List.length_nil, List.range_zero, List.filter_nil]
  rw [run, hroots, List.foldl_nil]

/-- What a chain does with a chunk is what its first instance does. -/
theorem run_chained {x : Instance Builtin} {xs : List (Instance Builtin)} (h : Chained (x :: xs)) {c : Chunk}
    {s : Builtin} {fs : List Finding} (hd : Protocol.decode x.state c = ⟨s, .ok fs⟩) :
    (ofInstances (x :: xs)).run c =
      ⟨{ x with state := s } :: xs, (fs.map (Finding.sign x.decoder)).toArray, none⟩ := by
  have hfirst : (ofInstances (x :: xs)).instances[0]? = some x := rfl
  rw [run, roots_of_chained h]
  refine (feed_silent rfl hfirst hd).trans ?_
  simp [ofInstances]

/-- A chunk takes a chain from its first sample to the one behind it. -/
theorem run_swept {xs : List (Instance Builtin)} (h : Chained xs) {unitSize : Nat} (hinUnit : InUnit unitSize xs)
    {level : Nat → Nat → Bool} {c : Chunk}
    (hlevel : ∀ i ch, c.start ≤ i → i < c.start + c.size → ch < 8 * unitSize → c.level i ch = level i ch) :
    ∃ ms, (ofInstances (swept level c.start xs)).run c = ⟨swept level c.stop xs, ms.toArray, none⟩ ∧
      marksIn level c.stop xs = marksIn level c.start xs ++ ms := by
  cases xs with
  | nil => exact ⟨[], run_nil c, rfl⟩
  | cons x xs =>
    set s := (Sampling.sweep level x.state 0 c.start).1
    set fs := (Sampling.sweep level s c.start c.size).2
    have hchannels : Sampling.channels s = Sampling.channels x.state := Sampling.channels_sweep ..
    have hdecode : Protocol.decode s c = ⟨(Sampling.sweep level s c.start c.size).1, .ok fs⟩ := by
      refine Sampling.decode_of_level fun i ch h1 h2 hch => hlevel i ch h1 h2 ?_
      rw [hchannels] at hch
      exact hinUnit x (List.mem_cons_self ..) ch hch
    have hadd : Sampling.sweep level x.state 0 c.stop =
        ((Sampling.sweep level s c.start c.size).1, (Sampling.sweep level x.state 0 c.start).2 ++ fs) := by
      rw [Chunk.stop, Sampling.sweep_add, Nat.zero_add]
    refine ⟨fs.map (Finding.sign x.decoder), ?_, ?_⟩
    · simp only [swept, hadd]
      exact run_chained (h.set_state s) hdecode
    · simp only [marksIn, hadd, List.map_append]

end Flow

end LogicDecode
