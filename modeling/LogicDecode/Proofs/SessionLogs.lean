import LogicDecode.Proofs.DeliveryRun

/-!
# What happens in a session

`Session.logs` are the logs of the blocks of samples that a session is handed, one for each. The session
does what the watched delivery of a block does (`Session.take_delivered`), so each log is lawful, and it ends
with all debts paid or with a refusal.
-/

namespace LogicDecode

/-- A range of samples as it is handed to a session. -/
structure Block where
  start : Nat
  stop : Nat
  data : Bytes
  unitSize : Nat

def Block.chunk (b : Block) : Chunk := ⟨b.start, b.data, b.unitSize⟩

namespace Session
variable {σ : Type} [Protocol σ]

def take (s : Session σ) (b : Block) : Delivered σ := s.send b.start b.stop b.data b.unitSize

/-- The instances while a block is delivered. -/
def watch (s : Session σ) (b : Block) : Watched σ :=
  (⟨.ofInstances s.instances, []⟩ : Watched σ).run b.chunk

/-- What happens when a block is handed over. -/
def logOf (s : Session σ) (b : Block) : List Happening :=
  match s.accept b.start b.stop b.data.size b.unitSize with
  | .error _ => []
  | .ok () => (s.watch b).log

/-- What comes of blocks that are handed over one after the other. -/
def takes (s : Session σ) : List Block → List (Delivered σ)
  | [] => []
  | b :: bs => s.take b :: (s.take b).session.takes bs

/-- What happens meanwhile, block by block. -/
def logs (s : Session σ) : List Block → List (List Happening)
  | [] => []
  | b :: bs => s.logOf b :: (s.take b).session.logs bs

def after (s : Session σ) (bs : List Block) : Session σ := bs.foldl (fun s b => (s.take b).session) s

variable {s : Session σ} {b : Block}

theorem steady_watch (s : Session σ) (b : Block) :
    Steady s.instances (fun _ => []) (fun _ => []) (s.watch b) :=
  (Steady.init s.instances).run

theorem take_turned_away {e : Failure EngineError}
    (h : s.accept b.start b.stop b.data.size b.unitSize = .error e) :
    s.take b = ⟨s, [], .error e⟩ ∧ s.logOf b = [] := by
  simp [take, send, logOf, h]

theorem take_delivered (h : s.accept b.start b.stop b.data.size b.unitSize = .ok ()) :
    (s.take b).session.instances = (s.watch b).flow.instances ∧
      (s.take b).session.reporting = s.reporting ∧
      (s.take b).reported = (if s.reporting then (s.watch b).flow.reported.toList else []) ∧
      ((s.take b).outcome = .ok () ↔ (s.watch b).flow.refusal = none) ∧
      s.logOf b = (s.watch b).log := by
  have hflow : (s.watch b).flow = (Flow.ofInstances s.instances).run ⟨b.start, b.data, b.unitSize⟩ :=
    Watched.flow_run _ _
  simp only [take, send, logOf, h, hflow]
  cases ((Flow.ofInstances s.instances).run ⟨b.start, b.data, b.unitSize⟩).refusal <;> simp

/-- What a block does, whatever comes of it. -/
structure Told (s : Session σ) (b : Block) : Prop where
  lowers : lowersOf (s.take b).session.instances = lowersOf s.instances
  reporting : (s.take b).session.reporting = s.reporting
  reported : s.reporting = true → (s.take b).reported = reportsIn (s.logOf b)
  lawful : Lawful (lowersOf s.instances) (s.logOf b)
  /-- The log ends with all debts paid, or with a refusal. -/
  ended : (Clean (s.logOf b) ∧ ∀ u l, (lowersOf s.instances)[u]? = some (some l) →
      offersTo u (s.logOf b) = reportsOf l (s.logOf b)) ∨
    ∃ e, Stopped (lowersOf s.instances) (s.logOf b) e

theorem told (s : Session σ) (b : Block) : Told s b := by
  cases h : s.accept b.start b.stop b.data.size b.unitSize with
  | error e =>
    obtain ⟨htake, hlog⟩ := take_turned_away h
    refine ⟨?_, ?_, fun _ => ?_, ?_, .inl ?_⟩
    · rw [htake]
    · rw [htake]
    · rw [htake, hlog]; rfl
    · rw [hlog]; exact .nil
    · rw [hlog]; exact ⟨.nil, fun _ _ _ => rfl⟩
  | ok =>
    obtain ⟨hinstances, hreporting, hreported, -, hlog⟩ := take_delivered h
    have hsteady := s.steady_watch b
    refine ⟨hinstances ▸ hsteady.lowers, hreporting, fun hs => ?_, hlog ▸ hsteady.lawful, ?_⟩
    · rw [hreported, if_pos hs, hsteady.reported, hlog]
    · rw [hlog]
      cases hw : (s.watch b).flow.refusal with
      | none =>
        have hb := hsteady.going hw
        exact .inl ⟨hb.clean, fun u l hu => (hb.offers u l hu).trans (List.append_nil _)⟩
      | some e => exact .inr ⟨e, hsteady.stopped e hw⟩

/-- A block that is accepted is paid in full. -/
theorem balanced_of_accepted (h : (s.take b).outcome = .ok ()) :
    Balanced s.instances (fun _ => []) (fun _ => []) (s.watch b) ∧ s.logOf b = (s.watch b).log ∧
      (s.take b).session.instances = (s.watch b).flow.instances ∧
      ∀ i, chunksTo i (s.logOf b) = if (lowersOf s.instances)[i]? = some none then [b.chunk] else [] := by
  cases haccept : s.accept b.start b.stop b.data.size b.unitSize with
  | error e =>
    rw [(take_turned_away haccept).1] at h
    cases h
  | ok =>
    obtain ⟨hinstances, -, -, houtcome, hlog⟩ := take_delivered haccept
    have hw := houtcome.1 h
    refine ⟨(s.steady_watch b).going hw, hlog, hinstances, fun i => ?_⟩
    rw [hlog]
    exact Watched.chunksTo_run (Steady.init s.instances) hw i

/-- What is reported while blocks are handed over are the reports in the logs. -/
theorem reported_takes (hs : s.reporting = true) (bs : List Block) :
    (s.takes bs).map Delivered.reported = (s.logs bs).map reportsIn := by
  induction bs generalizing s with
  | nil => rfl
  | cons b bs ih =>
    have ht := told s b
    rw [takes, logs, List.map_cons, List.map_cons, ht.reported hs, ih (ht.reporting.trans hs)]

theorem exists_of_mem_logs {bs : List Block} {log : List Happening} (h : log ∈ s.logs bs) :
    ∃ (s' : Session σ) (b : Block), lowersOf s'.instances = lowersOf s.instances ∧ log = logOf s' b := by
  induction bs generalizing s with
  | nil => cases h
  | cons b bs ih =>
    rcases List.mem_cons.1 h with rfl | h
    · exact ⟨s, b, rfl, rfl⟩
    · obtain ⟨s', b', hlowers, hlog⟩ := ih h
      exact ⟨s', b', hlowers.trans (told s b).lowers, hlog⟩

end Session

end LogicDecode
