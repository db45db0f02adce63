import LogicDecode.Proofs.Opening
import LogicDecode.Proofs.SessionLogs
import LogicDecode.Trial.Decoders
import Mathlib.Logic.Relation

/-!
# Forests of instances

The instances of a session should be a forest: from each of them the way down ends at one that takes samples.
Putting an instance on another one is refused if they are the same, or if the upper one sits on one already. That
keeps up a forest as long as no instance is put on one that sits on it through others, which is not refused
(`Session.forest_iff_no_loop`). Instances from which no way leads down to the samples are never called.
-/

namespace LogicDecode

/-- `SitsOn lowers u l`: the instance `u` takes the marks of `l`. -/
def SitsOn (lowers : List (Option Nat)) (u l : Nat) : Prop := lowers[u]? = some (some l)

/-- From each instance the way down ends at one that takes samples. -/
def Forest (lowers : List (Option Nat)) : Prop := ∀ i < lowers.length, ∃ d, Level lowers i d

section Ways
variable {lowers lowers' : List (Option Nat)} {i j l u d : Nat}

/-- The level of an instance depends on those on the way down from it. -/
theorem Level.transfer (h : Level lowers i d)
    (hway : ∀ j o, Relation.ReflTransGen (SitsOn lowers) i j → lowers[j]? = some o → lowers'[j]? = some o) :
    Level lowers' i d := by
  induction h with
  | root h => exact .root (hway _ _ .refl h)
  | upper h hl ih => exact .upper (hway _ _ .refl h) (ih fun j o hj => hway j o (.head h hj))

theorem Level.exists_below (h : Level lowers i d) (hbelow : Relation.TransGen (SitsOn lowers) i j) :
    ∃ k < d, Level lowers j k := by
  induction hbelow with
  | single hij =>
    cases h with
    | root h => cases h.symm.trans hij
    | upper h hl =>
      cases h.symm.trans hij
      exact ⟨_, Nat.lt_succ_self _, hl⟩
  | tail _ hjk ih =>
    obtain ⟨k, hk, hj⟩ := ih
    cases hj with
    | root h => cases h.symm.trans hjk
    | upper h hl =>
      cases h.symm.trans hjk
      exact ⟨_, by omega, hl⟩

namespace Forest

theorem acyclic (h : Forest lowers) : ∀ i, ¬ Relation.TransGen (SitsOn lowers) i i := by
  intro i hloop
  obtain ⟨j, hij, -⟩ := Relation.TransGen.head'_iff.1 hloop
  obtain ⟨d, hd⟩ := h i (List.getElem?_eq_some_iff.1 hij).1
  obtain ⟨k, hk, hlevel⟩ := hd.exists_below hloop
  have := hlevel.unique hd
  omega

/-- One more instance that takes samples. -/
theorem snoc (h : Forest lowers) : Forest (lowers ++ [none]) := by
  intro i hi
  rw [List.length_append, List.length_singleton] at hi
  rcases Nat.lt_or_eq_of_le (Nat.le_of_lt_succ hi) with hi | rfl
  · obtain ⟨d, hd⟩ := h i hi
    refine ⟨d, hd.transfer fun j o _ hj => ?_⟩
    rwa [List.getElem?_append_left (List.getElem?_eq_some_iff.1 hj).1]
  · exact ⟨0, .root (by simp)⟩

/-- An instance that takes samples is put on another one that does not sit on it. -/
theorem set (h : Forest lowers) (hu : lowers[u]? = some none) (hl : l < lowers.length)
    (hfree : ¬ Relation.ReflTransGen (SitsOn lowers) l u) : Forest (lowers.set u (some l)) := by
  have hput : (lowers.set u (some l))[u]? = some (some l) :=
    List.getElem?_set_self (List.getElem?_eq_some_iff.1 hu).1
  have hother : ∀ {j : Nat} {o : Option Nat}, u ≠ j → lowers[j]? = some o → (lowers.set u (some l))[j]? = some o :=
    fun hne hj => (List.getElem?_set_ne hne).trans hj
  -- the way down from `l` is as before
  obtain ⟨k, hk⟩ := h l hl
  have hlower : Level (lowers.set u (some l)) l k := hk.transfer fun j o hj =>
    hother fun huj => hfree (huj ▸ hj)
  intro i hi
  obtain ⟨d, hd⟩ := h i (by simpa using hi)
  clear hi
  induction hd with
  | @root i hi =>
    by_cases hui : u = i
    · exact hui ▸ ⟨k + 1, .upper hput hlower⟩
    · exact ⟨0, .root (hother hui hi)⟩
  | @upper i j d hij _ ih =>
    obtain ⟨d', hj⟩ := ih
    have hui : u ≠ i := by
      rintro rfl
      cases hu.symm.trans hij
    exact ⟨d' + 1, .upper (hother hui hij) hj⟩

end Forest
end Ways

/-- A call by which a session gets its instances. -/
inductive Assembling where
  | create (t : Setup)
  | stack (lower upper : Nat)

namespace Session
variable {σ : Type} {s s' : Session σ}

/-- The session after a call; one that is refused or ends in a fault leaves it as it was. -/
def assemble (s : Session σ) : Assembling → Session σ
  | .create t =>
    match s.create t with
    | .ok (s', _) => s'
    | .error _ => s
  | .stack lower upper =>
    match s.stack lower upper with
    | .ok s' => s'
    | .error _ => s

def assembled (s : Session σ) (calls : List Assembling) : Session σ := calls.foldl assemble s

/-- Among the calls is one that puts an instance on another one, is not refused, and finds that the other one sits
on the first, through others or directly. -/
def ClosesLoop (s : Session σ) (calls : List Assembling) : Prop :=
  ∃ pre l u post s', calls = pre ++ .stack l u :: post ∧ (s.assembled pre).stack l u = .ok s' ∧
    Relation.ReflTransGen (SitsOn (lowersOf (s.assembled pre).instances)) l u

theorem lowersOf_stack {l u : Nat} (h : s.stack l u = .ok s') : l < (lowersOf s.instances).length ∧
    (lowersOf s.instances)[u]? = some none ∧ lowersOf s'.instances = (lowersOf s.instances).set u (some l) := by
  obtain ⟨x, hl, hx, hnone, rfl⟩ := stack_eq_ok h
  refine ⟨by rwa [lowersOf, List.length_map], ?_, ?_⟩
  · rw [lowersOf, List.getElem?_map, hx, Option.map_some, hnone]
  · rw [lowersOf, lowersOf, List.map_set]

/-- What a call does to what sits on what. -/
theorem lowersOf_assemble (s : Session σ) (c : Assembling) :
    lowersOf (s.assemble c).instances = lowersOf s.instances ∨
      lowersOf (s.assemble c).instances = lowersOf s.instances ++ [none] ∨
      ∃ l u, c = .stack l u ∧ s.stack l u = .ok (s.assemble c) := by
  cases c with
  | create t =>
    unfold assemble
    dsimp only
    split
    · rename_i s' n h
      obtain ⟨r, state, -, -, -, rfl⟩ := create_eq_ok h
      exact .inr (.inl List.map_append)
    · exact .inl rfl
  | stack l u =>
    unfold assemble
    dsimp only
    split
    · rename_i s' h
      exact .inr (.inr ⟨l, u, rfl, h⟩)
    · exact .inl rfl

/-- No call moves an instance that sits on another one. -/
theorem sitsOn_assemble {c : Assembling} {u l : Nat} (h : SitsOn (lowersOf s.instances) u l) :
    SitsOn (lowersOf (s.assemble c).instances) u l := by
  unfold SitsOn at h ⊢
  rcases lowersOf_assemble s c with hsame | hmore | ⟨l', u', -, hstack⟩
  · rwa [hsame]
  · rwa [hmore, List.getElem?_append_left (List.getElem?_eq_some_iff.1 h).1]
  · obtain ⟨-, hnone, hset⟩ := lowersOf_stack hstack
    have hne : u' ≠ u := by
      rintro rfl
      cases hnone.symm.trans h
    rwa [hset, List.getElem?_set_ne hne]

theorem sitsOn_assembled {calls : List Assembling} {u l : Nat} (h : SitsOn (lowersOf s.instances) u l) :
    SitsOn (lowersOf (s.assembled calls).instances) u l := by
  induction calls generalizing s with
  | nil => exact h
  | cons c calls ih => exact ih (sitsOn_assemble h)

theorem forest_assemble (h : Forest (lowersOf s.instances)) {c : Assembling} (hfree : ¬ s.ClosesLoop [c]) :
    Forest (lowersOf (s.assemble c).instances) := by
  rcases lowersOf_assemble s c with hsame | hmore | ⟨l, u, rfl, hstack⟩
  · rwa [hsame]
  · rw [hmore]
    exact h.snoc
  · obtain ⟨hl, hnone, hset⟩ := lowersOf_stack hstack
    rw [hset]
    exact h.set hnone hl fun hway => hfree ⟨[], l, u, [], _, rfl, hstack, hway⟩

theorem forest_assembled (h : Forest (lowersOf s.instances)) {calls : List Assembling}
    (hfree : ¬ s.ClosesLoop calls) : Forest (lowersOf (s.assembled calls).instances) := by
  induction calls generalizing s with
  | nil => exact h
  | cons c calls ih =>
    refine ih (forest_assemble h fun hloop => hfree ?_) fun hloop => hfree ?_
    · obtain ⟨pre, l, u, post, s', hcalls, hstack, hway⟩ := hloop
      exact ⟨pre, l, u, post ++ calls, s', by simpa using congrArg (· ++ calls) hcalls, hstack, hway⟩
    · obtain ⟨pre, l, u, post, s', rfl, hstack, hway⟩ := hloop
      exact ⟨c :: pre, l, u, post, s', rfl, hstack, hway⟩

/-- A loop that is closed stays there. -/
theorem loop_assembled {calls : List Assembling} (h : s.ClosesLoop calls) :
    ∃ i, Relation.TransGen (SitsOn (lowersOf (s.assembled calls).instances)) i i := by
  obtain ⟨pre, l, u, post, s', rfl, hstack, hway⟩ := h
  have hstep : (s.assembled pre).assemble (.stack l u) = s' := by simp only [assemble, hstack]
  have hend : s.assembled (pre ++ .stack l u :: post) = s'.assembled post := by
    rw [← hstep]
    exact List.foldl_append
  obtain ⟨-, hnone, hset⟩ := lowersOf_stack hstack
  have hput : SitsOn (lowersOf s'.instances) u l := by
    rw [hset]
    exact List.getElem?_set_self (List.getElem?_eq_some_iff.1 hnone).1
  have hkept : ∀ i j, SitsOn (lowersOf (s.assembled pre).instances) i j → SitsOn (lowersOf s'.instances) i j :=
    fun i j hij => hstep ▸ sitsOn_assemble hij
  refine ⟨u, hend ▸ Relation.TransGen.head' (sitsOn_assembled hput) ?_⟩
  exact Relation.ReflTransGen.mono (fun i j hij => sitsOn_assembled (hkept i j hij)) _ _ hway

end Session

section Driven
variable {σ : Type} [Protocol σ] {w : Watched σ} {lowers : List (Option Nat)}

/-- Only instances from which the way down ends at one that takes samples are called. -/
structure Driven (lowers : List (Option Nat)) (w : Watched σ) : Prop where
  links : lowersOf w.flow.instances = lowers
  called : ∀ i call r, .called i call r ∈ w.log → ∃ d, Level lowers i d

namespace Driven

theorem move (h : Driven lowers w) {i d : Nat} (hi : Level lowers i d) (call : Handout) :
    Driven lowers (w.move i call).1 := by
  cases hw : w.flow.refusal with
  | some e =>
    rw [Watched.move_refused hw]
    exact h
  | none =>
    have hlower : ∃ o, lowers[i]? = some o := by
      cases hi with
      | root hi => exact ⟨_, hi⟩
      | upper hi => exact ⟨_, hi⟩
    obtain ⟨o, ho⟩ := hlower
    obtain ⟨x, hx, -⟩ := exists_instance (h.links ▸ ho)
    have hcalled : ∀ {r : Except EngineError (List Mark)}, ∀ j call' r',
        .called j call' r' ∈ w.log ++ [.called i call r] → ∃ d, Level lowers j d := by
      intro r j call' r' hmem
      rcases List.mem_append.1 hmem with hmem | hmem
      · exact h.called j call' r' hmem
      · cases List.mem_singleton.1 hmem
        exact ⟨d, hi⟩
    rcases hr : call.reply x.state with ⟨state, result⟩
    cases result with
    | ok fs =>
      rw [Watched.move_ok hw hx hr]
      exact ⟨(lowersOf_set hx state).trans h.links, hcalled⟩
    | error e =>
      rw [Watched.move_error hw hx hr]
      exact ⟨(lowersOf_set hx state).trans h.links, hcalled⟩

omit [Protocol σ] in
theorem report (h : Driven lowers w) (i : Nat) (m : Mark) : Driven lowers (w.report i m) := by
  cases hw : w.flow.refusal with
  | some e =>
    rw [Watched.report_refused hw]
    exact h
  | none =>
    rw [Watched.report_ok hw]
    refine ⟨h.links, fun j call r hmem => ?_⟩
    rcases List.mem_append.1 hmem with hmem | hmem
    · exact h.called j call r hmem
    · cases List.mem_singleton.1 hmem

theorem feed (h : Driven lowers w) {i : Nat} (hi : lowers[i]? = some none) (c : Chunk) :
    Driven lowers (w.feed c i) := by
  unfold Watched.feed
  refine Watched.deliver_keeps_among (Driven lowers) (fun j => ∃ d, Level lowers j d) ?_ ?_ ?_ _ _
    ⟨0, .root hi⟩ (h.move (.root hi) _)
  · rintro w l hw ⟨d, hl⟩ u hu
    exact ⟨d + 1, .upper (hw.links ▸ w.flow.mem_uppers.1 hu) hl⟩
  · rintro w j m hw ⟨d, hj⟩
    exact hw.move hj _
  · exact fun w j m hw _ => hw.report j m

theorem run (h : Driven lowers w) (c : Chunk) : Driven lowers (w.run c) := by
  have hroots : ∀ i ∈ w.flow.roots, lowers[i]? = some none := fun i hi => h.links ▸ w.flow.mem_roots.1 hi
  exact List.foldlRecOn w.flow.roots _ h fun w' h' i hi => h'.feed (hroots i hi) c

end Driven

theorem Session.level_of_called {s : Session σ} {bs : List Block} {log : List Happening} (hlog : log ∈ s.logs bs)
    {i : Nat} {call : Handout} {r : Except EngineError (List Mark)} (h : .called i call r ∈ log) :
    ∃ d, Level (lowersOf s.instances) i d := by
  obtain ⟨s', b, hlowers, rfl⟩ := exists_of_mem_logs hlog
  rw [← hlowers]
  cases haccept : s'.accept b.start b.stop b.data.size b.unitSize with
  | error e =>
    rw [(take_turned_away haccept).2] at h
    cases h
  | ok =>
    obtain ⟨-, -, -, -, hwatch⟩ := take_delivered haccept
    rw [hwatch] at h
    have hinit : Driven (lowersOf s'.instances) ⟨Flow.ofInstances s'.instances, []⟩ := ⟨rfl, nofun⟩
    exact (hinit.run b.chunk).called i call r h

end Driven

namespace Session
variable {σ : Type} [Protocol σ]

/-- Whatever calls a session gets its instances by, they are a forest if and only if no instance sits on itself
through others, and that is so if and only if no call has closed such a loop. Whatever is handed to the instances then,
only those are called from which the way down ends at one that takes samples. -/
theorem forest_iff_no_loop (r : Registry σ) (calls : List Assembling) :
    let s := (Session.ofRegistry r).assembled calls
    (Forest (lowersOf s.instances) ↔ ¬ (Session.ofRegistry r).ClosesLoop calls) ∧
      (Forest (lowersOf s.instances) ↔ ∀ i, ¬ Relation.TransGen (SitsOn (lowersOf s.instances)) i i) ∧
      ∀ t : Session σ, lowersOf t.instances = lowersOf s.instances → ∀ bs, ∀ log ∈ t.logs bs, ∀ i call result,
        .called i call result ∈ log → ∃ d, Level (lowersOf s.instances) i d := by
  intro s
  have hempty : Forest (lowersOf (Session.ofRegistry r).instances) := fun i hi => nomatch hi
  have hacyclic : (∀ i, ¬ Relation.TransGen (SitsOn (lowersOf s.instances)) i i) →
      ¬ (Session.ofRegistry r).ClosesLoop calls := fun h hloop => by
    obtain ⟨i, hi⟩ := loop_assembled hloop
    exact h i hi
  refine ⟨⟨fun h => hacyclic h.acyclic, forest_assembled hempty⟩,
    ⟨Forest.acyclic, fun h => forest_assembled hempty (hacyclic h)⟩, fun t ht bs log hlog i call result hmem => ?_⟩
  rw [← ht]
  exact level_of_called hlog hmem

/-- Two instances are put on each other, and take nothing any more. -/
theorem forest_iff_no_loop_two :
    let calls : List Assembling :=
      [.create ⟨"high", [("data", 0)], []⟩, .create ⟨"count", [], []⟩, .stack 0 1, .stack 1 0]
    let s := (Session.ofRegistry Trial.registry).assembled calls
    lowersOf s.instances = [some 1, some 0] ∧ ¬ Forest (lowersOf s.instances) ∧
      ∀ t : Session Trial, lowersOf t.instances = lowersOf s.instances → ∀ bs, ∀ log ∈ t.logs bs, ∀ i call result,
        .called i call result ∉ log := by
  intro calls s
  have hlowers : lowersOf s.instances = [some 1, some 0] := by decide +kernel
  obtain ⟨hforest, -, hcalled⟩ := forest_iff_no_loop Trial.registry calls
  refine ⟨hlowers, fun h => hforest.1 h ⟨calls.take 3, 1, 0, [], s, rfl, rfl, ?_⟩, ?_⟩
  · have hup : lowersOf ((Session.ofRegistry Trial.registry).assembled (calls.take 3)).instances = [none, some 0] := by
      decide +kernel
    rw [hup]
    exact .single rfl
  · intro t ht bs log hlog i call result hmem
    obtain ⟨d, hd⟩ := hcalled t ht bs log hlog i call result hmem
    rw [hlowers] at hd
    clear hmem
    -- no instance takes samples, so none has a level
    induction hd with
    | root h => simpa using List.mem_of_getElem? h
    | upper _ _ ih => exact ih

end Session
end LogicDecode
