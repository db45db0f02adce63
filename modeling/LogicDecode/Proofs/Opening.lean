import LogicDecode.Proofs.Assigned
import LogicDecode.Proofs.Chains
import LogicDecode.Proofs.WorkerMoves

/-!
# Opening a chain of decoders

A run makes one instance per stage, each on top of the one before, and starts them. What comes of it on
an engine of the library's decoders is `openChain`: a session whose instances are chained and read bits
of the unit, if the signals of the stages are bits of the unit (`opened_of_openChain`).
-/

namespace LogicDecode

/-- The signals on the channels of stages are bits of a unit. -/
def Wired (unitSize : Nat) (stages : List Stage) : Prop :=
  ∀ stage ∈ stages, ∀ p ∈ stage.signals, p.2.bit < 8 * unitSize

/-- A session that instances are made in. -/
structure Stacking (unitSize : Nat) (s : Session Builtin) : Prop where
  registry : s.registry = Builtin.registry
  started : s.started = false
  next : s.next = none
  chained : Chained s.instances
  inUnit : InUnit unitSize s.instances

/-- A session of a chain that is about to take its first sample. -/
structure Opened (unitSize : Nat) (s : Session Builtin) : Prop where
  started : s.started = true
  reporting : s.reporting = true
  next : s.next = none
  chained : Chained s.instances
  inUnit : InUnit unitSize s.instances

theorem Chained.snoc {σ : Type} {xs : List (Instance σ)} (h : Chained xs) {y : Instance σ}
    (hy : y.lower = none ↔ xs.length = 0) : Chained (xs ++ [y]) := by
  intro i x hx
  rcases Nat.lt_trichotomy i xs.length with hi | rfl | hi
  · rw [List.getElem?_append_left hi] at hx
    exact h i x hx
  · rw [List.getElem?_append_right (Nat.le_refl _), Nat.sub_self] at hx
    cases hx
    exact hy
  · rw [List.getElem?_eq_none (by simp; omega)] at hx
    cases hx

namespace Session
variable {σ : Type} {s s' : Session σ}

theorem create_eq_ok {t : Setup} {n : Nat} (h : s.create t = .ok (s', n)) :
    ∃ r state, s.registry.get? t.decoder = some r ∧ r.create t = .ok state ∧ n = s.instances.length ∧
      s' = { s with instances := s.instances ++ [⟨r.profile.id, state, none⟩] } := by
  unfold create at h
  split at h
  · cases h
  split at h
  · cases h
  · rename_i r hr
    obtain ⟨state, hstate, h⟩ := exists_of_bind h
    cases h
    exact ⟨r, state, hr, hstate, rfl, rfl⟩

theorem find_eq_ok {i : Nat} {x : Instance σ} (h : s.find i = .ok x) : s.instances[i]? = some x := by
  unfold find at h
  split at h
  · rename_i y hy
    cases h
    exact hy
  · cases h

theorem stack_eq_ok {l u : Nat} (h : s.stack l u = .ok s') :
    ∃ x, l < s.instances.length ∧ s.instances[u]? = some x ∧ x.lower = none ∧
      s' = { s with instances := s.instances.set u { x with lower := some l } } := by
  unfold stack at h
  extract_lets rest at h
  split at h
  · cases h
  obtain ⟨y, hy, h⟩ := exists_of_bind h
  obtain ⟨x, hx, h⟩ := exists_of_bind h
  extract_lets rest' at h
  split at h
  · cases h
  dsimp only [rest'] at h
  split at h
  · cases h
  · rename_i hnone
    cases h
    exact ⟨x, (List.getElem?_eq_some_iff.1 (find_eq_ok hy)).1, find_eq_ok hx, hnone, rfl⟩

end Session

namespace Stacking
variable {unitSize : Nat} {s s' : Session Builtin} {stage : Stage} {n : Nat}

theorem empty : Stacking unitSize (.ofRegistry Builtin.registry) :=
  ⟨rfl, rfl, rfl, fun _ _ hx => (nomatch hx), fun _ hx => nomatch hx⟩

theorem add (h : Stacking unitSize s) (hbits : ∀ p ∈ stage.signals, p.2.bit < 8 * unitSize)
    (hcreate : s.create stage.setup = .ok (s', n)) (lower : Option Nat)
    (hlower : lower = none ↔ s.instances.length = 0) :
    ∃ y, y.lower = none ∧ s'.instances = s.instances ++ [y] ∧
      Stacking unitSize { s' with instances := s.instances ++ [{ y with lower := lower }] } := by
  obtain ⟨r, b, hr, hb, -, rfl⟩ := Session.create_eq_ok hcreate
  refine ⟨⟨r.profile.id, b, none⟩, rfl, rfl, h.registry, h.started, h.next, h.chained.snoc hlower, fun x hx => ?_⟩
  rcases List.mem_append.1 hx with hx | hx
  · exact h.inUnit x hx
  · rw [List.mem_singleton.1 hx]
    rw [h.registry] at hr
    intro c hc
    have hc := Builtin.channels_of_create (Registry.mem_of_get?_ofList hr).1 hb c hc
    simp only [Setup.bits, Stage.setup, List.map_map, List.mem_map] at hc
    obtain ⟨p, hp, rfl⟩ := hc
    exact hbits p hp

theorem first (h : Stacking unitSize s) (hbits : ∀ p ∈ stage.signals, p.2.bit < 8 * unitSize)
    (hcreate : s.create stage.setup = .ok (s', n)) (hlen : s.instances.length = 0) :
    Stacking unitSize s' ∧ s'.instances.length = 1 := by
  obtain ⟨y, hy, hinstances, hadd⟩ := h.add hbits hcreate none (by simp [hlen])
  have hsame : ({ y with lower := none } : Instance Builtin) = y := by rw [← hy]
  rw [hsame, ← hinstances] at hadd
  exact ⟨hadd, by rw [hinstances, List.length_append, hlen, List.length_singleton]⟩

theorem next_on (h : Stacking unitSize s) (hbits : ∀ p ∈ stage.signals, p.2.bit < 8 * unitSize)
    (hcreate : s.create stage.setup = .ok (s', n)) (hlen : s.instances.length ≠ 0) {l : Nat}
    {s'' : Session Builtin} (hstack : s'.stack l s.instances.length = .ok s'') :
    Stacking unitSize s'' ∧ s''.instances.length = s.instances.length + 1 := by
  obtain ⟨y, -, hinstances, hadd⟩ := h.add hbits hcreate (some l) (by simp [hlen])
  obtain ⟨x, -, hx, -, rfl⟩ := Session.stack_eq_ok hstack
  rw [hinstances, List.getElem?_append_right (Nat.le_refl _), Nat.sub_self] at hx
  cases hx
  have hset : s'.instances.set s.instances.length { y with lower := some l } =
      s.instances ++ [{ y with lower := some l }] := by
    rw [hinstances, List.set_append_right _ _ (Nat.le_refl _), Nat.sub_self]
    rfl
  rw [hset]
  exact ⟨hadd, by simp⟩

end Stacking

/-- The instances that are made of stages are chained, and behind those that were there. -/
theorem stacking_of_build {unitSize : Nat} {stages : List Stage} (hwired : Wired unitSize stages)
    {h h' : Host Builtin} {s : Session Builtin} (hs : h.session = some s) (hk : Stacking unitSize s)
    {lower : Option Nat} (hlower : lower = if s.instances.length = 0 then none else some (s.instances.length - 1))
    (hbuild : Stack.build h lower stages = (h', .ok ())) :
    ∃ s', h'.session = some s' ∧ Stacking unitSize s' := by
  induction stages generalizing h s lower with
  | nil =>
    cases hbuild
    exact ⟨s, hs, hk⟩
  | cons stage rest ih =>
    have hbits := hwired stage (List.mem_cons_self ..)
    have hwired : Wired unitSize rest := fun t ht => hwired t (List.mem_cons_of_mem _ ht)
    rcases hcreate : s.create stage.setup with e | ⟨s', n⟩
    · simp only [Stack.build, Engine.create, Host.create, hs, hcreate] at hbuild
      cases e <;> cases hbuild
    · simp only [Stack.build, Engine.create, Host.create, hs, hcreate] at hbuild
      obtain ⟨-, -, -, -, hn, -⟩ := Session.create_eq_ok hcreate
      subst hn
      -- only the first stage finds no instance to be put on
      by_cases hlen : s.instances.length = 0
      · rw [hlower, if_pos hlen] at hbuild
        obtain ⟨hk, hlen'⟩ := hk.first hbits hcreate hlen
        exact ih hwired rfl hk (by rw [hlen, hlen']; rfl) hbuild
      · rw [hlower, if_neg hlen] at hbuild
        rcases hstack : s'.stack (s.instances.length - 1) s.instances.length with e | s''
        · simp only [Engine.stack, Host.update, hstack] at hbuild
          cases hbuild
        · simp only [Engine.stack, Host.update, hstack] at hbuild
          obtain ⟨hk, hlen'⟩ := hk.next_on hbits hcreate hlen hstack
          exact ih hwired rfl hk (by rw [hlen']; rfl) hbuild

theorem Host.registry_of_reaches {σ : Type} [Protocol σ] {h h' : Host σ} (hreaches : Engine.Reaches h h') :
    h'.registry = h.registry := by
  have hupdate : ∀ (h : Host σ) (call : Session σ → Except EngineError (Session σ)),
      (h.update call).1.registry = h.registry := by
    intro h call
    unfold Host.update
    split
    · rfl
    · split <;> rfl
  induction hreaches with
  | refl => rfl
  | tail _ hlead ih =>
    refine Eq.trans ?_ ih
    cases hlead with
    | openSession | setRate | attach | closeSession => rfl
    | stack | start => exact hupdate ..
    | create setup =>
      simp only [Engine.create, Host.create]
      split
      · rfl
      · split <;> rfl
    | send start stop data unitSize =>
      simp only [Engine.send, Host.send]
      split <;> rfl

/-- The session of a run of some stages at a rate, if it can be opened. -/
def openChain (stages : List Stage) (hz : Nat) : Option (Session Builtin) :=
  match Stack.build (Engine.openSession (Host.ofRegistry Builtin.registry)).1 none stages with
  | (h, .ok ()) => (Engine.start (Engine.attach (Engine.setRate h hz))).1.session
  | (_, .error _) => none

section OpenChain
variable {unitSize : Nat} {stages : List Stage}

theorem Stacking.start {s : Session Builtin} (h : Stacking unitSize s) (hz : Nat) :
    ∃ s', (s.setRate hz).attach.start = .ok s' ∧ Opened unitSize s' ∧
      s'.instances = s.instances.map fun x => { x with state := Protocol.start x.state hz } := by
  refine ⟨_, if_neg (by simp [Session.attach, Session.setRate, h.started]), ?_, rfl⟩
  refine ⟨rfl, rfl, h.next, fun i x hx => ?_, fun x hx c hc => ?_⟩
  · obtain ⟨y, hy, rfl⟩ := Option.map_eq_some_iff.1 ((List.getElem?_map ..).symm.trans hx)
    exact h.chained i y hy
  · obtain ⟨y, hy, rfl⟩ := List.mem_map.1 hx
    rw [Builtin.channels_start] at hc
    exact h.inUnit y hy c hc

/-- What a run does to open its session, whatever the engine did before. -/
theorem open_eq {e : Host Builtin} (h : e.registry = Builtin.registry) :
    Engine.openSession e = ((Engine.openSession (Host.ofRegistry Builtin.registry)).1, .ok ()) := by
  simp only [Engine.openSession, Host.ofRegistry, h]

theorem started_of_build (hwired : Wired unitSize stages) {h : Host Builtin}
    (hbuild : Stack.build (Engine.openSession (Host.ofRegistry Builtin.registry)).1 none stages = (h, .ok ())) :
    ∃ b : Session Builtin, ∀ hz, ∃ s : Session Builtin, openChain stages hz = some s ∧ Opened unitSize s ∧
      s.instances = b.instances.map (fun x => { x with state := Protocol.start x.state hz }) ∧
      Engine.start (Engine.attach (Engine.setRate h hz)) = ({ h with session := some s }, .ok ()) := by
  obtain ⟨b, hb, hk⟩ := stacking_of_build hwired rfl .empty rfl hbuild
  refine ⟨b, fun hz => ?_⟩
  obtain ⟨s, hs, hopened, hinstances⟩ := hk.start hz
  have hstart : Engine.start (Engine.attach (Engine.setRate h hz)) = ({ h with session := some s }, .ok ()) := by
    simp only [Engine.start, Engine.attach, Engine.setRate, Host.update, hb, Option.map_some, hs]
  refine ⟨s, ?_, hopened, hinstances, hstart⟩
  simp only [openChain, hbuild, hstart]

theorem opened_of_openChain (hwired : Wired unitSize stages) {hz : Nat} {s : Session Builtin}
    (h : openChain stages hz = some s) : Opened unitSize s := by
  unfold openChain at h
  split at h
  · rename_i e hbuild
    obtain ⟨b, hb⟩ := started_of_build hwired hbuild
    obtain ⟨s', hs', hopened, -, hstart⟩ := hb hz
    rw [hstart] at h
    cases h
    exact hopened
  · cases h

/-- The instances do not depend on the rate. -/
theorem instances_openChain (hwired : Wired unitSize stages) (hz hz' : Nat) :
    (openChain stages hz).map Session.instances = (openChain stages hz').map Session.instances := by
  rcases hbuild : Stack.build (Engine.openSession (Host.ofRegistry Builtin.registry)).1 none stages with ⟨h, r⟩
  cases r with
  | error e => simp only [openChain, hbuild]
  | ok =>
    obtain ⟨b, hb⟩ := started_of_build hwired hbuild
    obtain ⟨s, hs, -, hinstances, -⟩ := hb hz
    obtain ⟨s', hs', -, hinstances', -⟩ := hb hz'
    have hrate : ∀ x : Builtin, Protocol.start x hz = Protocol.start x hz' := fun x => by cases x <;> rfl
    rw [hs, hs', Option.map_some, Option.map_some, hinstances, hinstances']
    simp only [hrate]

end OpenChain

end LogicDecode
