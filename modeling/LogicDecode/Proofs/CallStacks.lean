import LogicDecode.Proofs.Forests
import Mathlib.Logic.Function.Iterate

/-!
# The calls of a delivery

`Flow.deliver` counts down, so it ends whatever sits on what; that its count never cuts anything off is shown here. A
`CallStack` makes the calls of a delivery without a count, and among instances in a loop they would never return
(`CallStack.loop_never_returns`). Those that a session makes do (`Session.calls_return`): the calls that have not
returned lead down to an instance that takes samples (`Way`), so none is ever made in a loop, and there are at most as
many of them as there are instances. The induction is on the count of the delivery, which is large enough for the level
of the instance it begins with (`Returns`).
-/

namespace LogicDecode

/-- A call that delivers the marks of an instance: what the instances above have made of the mark at hand and has not
been delivered yet, and the marks that come after it. -/
structure OpenCall where
  number : Nat
  derived : List (Nat × List Mark)
  marks : List Mark

/-- A delivery under way: the calls that have not returned, the innermost one first, and the instances that the chunk
has not come to yet. -/
structure CallStack (σ : Type) where
  watched : Watched σ
  calls : List OpenCall
  waiting : List Nat

/-- Instances that sit on each other, down to one that takes samples. -/
inductive Way (lowers : List (Option Nat)) : List Nat → Prop
  | nil : Way lowers []
  | root {i : Nat} (h : lowers[i]? = some none) : Way lowers [i]
  | upper {u l : Nat} {way : List Nat} (h : SitsOn lowers u l) (hl : Way lowers (l :: way)) :
      Way lowers (u :: l :: way)

namespace Way
variable {lowers : List (Option Nat)} {i : Nat} {way : List Nat}

theorem level (h : Way lowers (i :: way)) : Level lowers i way.length := by
  induction way generalizing i with
  | nil =>
    cases h with
    | root h => exact .root h
  | cons l way ih =>
    cases h with
    | upper h hl => exact .upper h (ih hl)

theorem tail (h : Way lowers (i :: way)) : Way lowers way := by
  cases h with
  | root => exact .nil
  | upper _ hl => exact hl

theorem exists_level (h : Way lowers way) {j : Nat} (hj : j ∈ way) : ∃ k < way.length, Level lowers j k := by
  induction way with
  | nil => cases hj
  | cons i way ih =>
    rcases List.mem_cons.1 hj with rfl | hj
    · exact ⟨_, Nat.lt_succ_self _, h.level⟩
    · obtain ⟨k, hk, hlevel⟩ := ih h.tail hj
      exact ⟨k, Nat.lt_succ_of_lt hk, hlevel⟩

theorem nodup (h : Way lowers way) : way.Nodup := by
  induction way with
  | nil => exact .nil
  | cons i way ih =>
    refine List.nodup_cons.2 ⟨fun hi => ?_, ih h.tail⟩
    obtain ⟨k, hk, hlevel⟩ := h.tail.exists_level hi
    exact Nat.ne_of_lt hk (hlevel.unique h.level)

theorem length_le (h : Way lowers way) : way.length ≤ lowers.length := by
  cases way with
  | nil => exact Nat.zero_le _
  | cons i way => exact h.level.lt

end Way

namespace Watched
variable {σ : Type} [Protocol σ]

theorem links_move (w : Watched σ) (i : Nat) (call : Handout) :
    lowersOf (w.move i call).1.flow.instances = lowersOf w.flow.instances := by
  show lowersOf ((w.move i call).1.flow, (w.move i call).2).1.instances = _
  rw [w.flow_move, Flow.move]
  split
  · rename_i x _ hx
    dsimp only
    cases (call.reply x.state).result with
    | ok fs => exact lowersOf_set hx _
    | error e => exact lowersOf_set hx _
  · rfl

omit [Protocol σ] in
theorem instances_report (w : Watched σ) (i : Nat) (m : Mark) :
    (w.report i m).flow.instances = w.flow.instances := by
  rw [w.flow_report, Flow.report]
  cases w.flow.refusal <;> rfl

theorem links_offer (w : Watched σ) (m : Mark) (us : List Nat) :
    lowersOf (w.offer m us).1.flow.instances = lowersOf w.flow.instances := by
  induction us generalizing w with
  | nil => rfl
  | cons u us ih => exact (ih _).trans (links_move w u _)

theorem links_deliver (depth : Nat) (w : Watched σ) (i : Nat) (ms : List Mark) :
    lowersOf (deliver depth w i ms).flow.instances = lowersOf w.flow.instances := by
  refine deliver_keeps (fun w' => lowersOf w'.flow.instances = lowersOf w.flow.instances)
    (fun w' j m hw => (links_move w' j _).trans hw) (fun w' j m hw => ?_) depth i ms rfl
  rw [instances_report]
  exact hw

theorem delivers_refused {w : Watched σ} {e : EngineError} (hw : w.flow.refusal = some e) (depth : Nat)
    (ds : List (Nat × List Mark)) : ds.foldl (fun w d => deliver depth w d.1 d.2) w = w := by
  induction ds with
  | nil => rfl
  | cons d ds ih => rw [List.foldl_cons, deliver_refused hw, ih]

end Watched

theorem Driven.offer {σ : Type} [Protocol σ] {lowers : List (Option Nat)} {w : Watched σ} (h : Driven lowers w)
    (m : Mark) {us : List Nat} (hus : ∀ u ∈ us, ∃ d, Level lowers u d) : Driven lowers (w.offer m us).1 := by
  induction us generalizing w with
  | nil => exact h
  | cons u us ih =>
    obtain ⟨d, hu⟩ := hus u List.mem_cons_self
    exact ih (h.move hu _) fun v hv => hus v (List.mem_cons_of_mem _ hv)

namespace CallStack
variable {σ : Type} [Protocol σ]

/-- Makes one move. A refusal makes all calls return and no instance is given the chunk any more. Otherwise the
innermost call makes another one for what is made of a mark, or turns to its next mark, or returns. -/
def step (c : Chunk) (t : CallStack σ) : CallStack σ :=
  match t.watched.flow.refusal, t.calls, t.waiting with
  | some _, _ :: calls, _ => { t with calls := calls }
  | some _, [], _ => { t with waiting := [] }
  | none, ⟨i, (u, ms) :: derived, marks⟩ :: calls, _ =>
    { t with calls := ⟨u, [], ms⟩ :: ⟨i, derived, marks⟩ :: calls }
  | none, ⟨i, [], m :: marks⟩ :: calls, _ =>
    let (w, derived) := t.watched.offer m (t.watched.flow.uppers i)
    { t with watched := w.report i m, calls := ⟨i, derived, marks⟩ :: calls }
  | none, ⟨_, [], []⟩ :: calls, _ => { t with calls := calls }
  | none, [], i :: waiting =>
    let (w, ms) := t.watched.move i (.samples c)
    ⟨w, [⟨i, [], ms⟩], waiting⟩
  | none, [], [] => t

/-- Some moves lead from one state to the other. -/
def Reaches (c : Chunk) (t t' : CallStack σ) : Prop := ∃ n, (step c)^[n] t = t'

namespace Reaches
variable {c : Chunk} {t t' t'' : CallStack σ}

theorem refl : Reaches c t t := ⟨0, rfl⟩

theorem trans (h : Reaches c t t') (h' : Reaches c t' t'') : Reaches c t t'' := by
  obtain ⟨n, rfl⟩ := h
  obtain ⟨n', rfl⟩ := h'
  exact ⟨n' + n, Function.iterate_add_apply _ _ _ _⟩

theorem head (h : step c t = t') (h' : Reaches c t' t'') : Reaches c t t'' := by
  subst h
  obtain ⟨n, rfl⟩ := h'
  exact ⟨n + 1, rfl⟩

theorem single (h : step c t = t') : Reaches c t t' := head h refl

end Reaches

section Moves
variable {c : Chunk} {w : Watched σ} {calls : List OpenCall} {waiting : List Nat}

theorem step_return_refused {e : EngineError} (hw : w.flow.refusal = some e) (k : OpenCall) :
    step c ⟨w, k :: calls, waiting⟩ = ⟨w, calls, waiting⟩ := by
  simp only [step, hw]

theorem step_over_refused {e : EngineError} (hw : w.flow.refusal = some e) (waiting : List Nat) :
    step c ⟨w, [], waiting⟩ = ⟨w, [], []⟩ := by
  simp only [step, hw]

theorem step_done : step c ⟨w, [], []⟩ = ⟨w, [], []⟩ := by
  unfold step
  cases w.flow.refusal <;> rfl

theorem step_return (i : Nat) : step c ⟨w, ⟨i, [], []⟩ :: calls, waiting⟩ = ⟨w, calls, waiting⟩ := by
  unfold step
  cases w.flow.refusal <;> rfl

theorem step_call (hw : w.flow.refusal = none) (i u : Nat) (ms marks : List Mark) (derived : List (Nat × List Mark)) :
    step c ⟨w, ⟨i, (u, ms) :: derived, marks⟩ :: calls, waiting⟩ =
      ⟨w, ⟨u, [], ms⟩ :: ⟨i, derived, marks⟩ :: calls, waiting⟩ := by
  simp only [step, hw]

theorem step_mark (hw : w.flow.refusal = none) (i : Nat) (m : Mark) (marks : List Mark) :
    step c ⟨w, ⟨i, [], m :: marks⟩ :: calls, waiting⟩ =
      ⟨(w.offer m (w.flow.uppers i)).1.report i m, ⟨i, (w.offer m (w.flow.uppers i)).2, marks⟩ :: calls, waiting⟩ := by
  simp only [step, hw]

theorem step_feed (hw : w.flow.refusal = none) (i : Nat) :
    step c ⟨w, [], i :: waiting⟩ =
      ⟨(w.move i (.samples c)).1, [⟨i, [], (w.move i (.samples c)).2⟩], waiting⟩ := by
  simp only [step, hw]

end Moves

/-- A call for an instance returns, if the count of a delivery suffices for the level of the instance, and does with
all further calls what the delivery does. -/
def Returns (σ : Type) [Protocol σ] (c : Chunk) (lowers : List (Option Nat)) (depth : Nat) : Prop :=
  ∀ (w : Watched σ) (i d : Nat) (ms : List Mark) (calls : List OpenCall) (waiting : List Nat),
    lowersOf w.flow.instances = lowers → Level lowers i d → lowers.length ≤ d + depth →
      Reaches c ⟨w, ⟨i, [], ms⟩ :: calls, waiting⟩ ⟨Watched.deliver depth w i ms, calls, waiting⟩

namespace Returns
variable {c : Chunk} {lowers : List (Option Nat)} {depth : Nat}

theorem zero : Returns σ c lowers 0 := by
  intro w i d ms calls waiting _ hi hdepth
  have := hi.lt
  omega

/-- A call delivers what is made of a mark, then the marks that come after it. -/
theorem derived (h : Returns σ c lowers depth) {i d : Nat} {ms : List Mark} {calls : List OpenCall}
    {waiting : List Nat} (hi : Level lowers i d) (hdepth : lowers.length ≤ d + (depth + 1))
    (hrest : ∀ w : Watched σ, lowersOf w.flow.instances = lowers →
      Reaches c ⟨w, ⟨i, [], ms⟩ :: calls, waiting⟩ ⟨Watched.deliver (depth + 1) w i ms, calls, waiting⟩)
    {ds : List (Nat × List Mark)} {w : Watched σ} (hlinks : lowersOf w.flow.instances = lowers)
    (hds : ∀ u ∈ ds.map Prod.fst, SitsOn lowers u i) :
    Reaches c ⟨w, ⟨i, ds, ms⟩ :: calls, waiting⟩
      ⟨Watched.deliver (depth + 1) (ds.foldl (fun w d => Watched.deliver depth w d.1 d.2) w) i ms,
        calls, waiting⟩ := by
  induction ds generalizing w with
  | nil => exact hrest w hlinks
  | cons d' ds ih =>
    obtain ⟨u, us⟩ := d'
    cases hw : w.flow.refusal with
    | some e =>
      rw [Watched.delivers_refused hw, Watched.deliver_refused hw]
      exact .single (step_return_refused hw _)
    | none =>
      have hu : Level lowers u (d + 1) := .upper (hds u List.mem_cons_self) hi
      have hcall := h w u (d + 1) us (⟨i, ds, ms⟩ :: calls) waiting hlinks hu (by omega)
      have hdelivered := (Watched.links_deliver depth w u us).trans hlinks
      have hrest' := ih hdelivered fun v hv => hds v (List.mem_cons_of_mem _ hv)
      exact .head (step_call hw i u us ms ds) (hcall.trans hrest')

theorem succ (h : Returns σ c lowers depth) : Returns σ c lowers (depth + 1) := by
  intro w i d ms calls waiting hlinks hi hdepth
  induction ms generalizing w with
  | nil => exact .single (step_return i)
  | cons m ms ih =>
    cases hw : w.flow.refusal with
    | some e =>
      rw [Watched.deliver_refused hw]
      exact .single (step_return_refused hw _)
    | none =>
      have hoffered : lowersOf ((w.offer m (w.flow.uppers i)).1.report i m).flow.instances = lowers := by
        rw [Watched.instances_report, Watched.links_offer, hlinks]
      have habove : ∀ u ∈ (w.offer m (w.flow.uppers i)).2.map Prod.fst, SitsOn lowers u i := by
        intro u hu
        rw [w.fst_offer, w.flow.mem_uppers, hlinks] at hu
        exact hu
      exact .head (step_mark hw i m ms) (h.derived hi hdepth ih hoffered habove)

theorem all (c : Chunk) (lowers : List (Option Nat)) (depth : Nat) : Returns σ c lowers depth := by
  induction depth with
  | zero => exact zero
  | succ depth ih => exact ih.succ

end Returns

/-- The instances are given the chunk one after the other, and the calls for each return. -/
theorem reaches_run {c : Chunk} {lowers : List (Option Nat)} {w : Watched σ} {is : List Nat}
    (hlinks : lowersOf w.flow.instances = lowers) (his : ∀ i ∈ is, lowers[i]? = some none) :
    Reaches c ⟨w, [], is⟩ ⟨is.foldl (fun w i => w.feed c i) w, [], []⟩ := by
  induction is generalizing w with
  | nil => exact .refl
  | cons i is ih =>
    cases hw : w.flow.refusal with
    | some e =>
      rw [Watched.feeds_refused hw]
      exact .single (step_over_refused hw _)
    | none =>
      have hmoved : lowersOf (w.move i (.samples c)).1.flow.instances = lowers := (w.links_move i _).trans hlinks
      have hdepth : lowers.length ≤ 0 + (w.move i (.samples c)).1.flow.instances.length := by
        rw [← hmoved, lowersOf, List.length_map]
        exact Nat.le_add_left ..
      have hi : Level lowers i 0 := .root (his i List.mem_cons_self)
      have hfed : lowersOf (w.feed c i).flow.instances = lowers := (Watched.links_deliver _ _ i _).trans hmoved
      have hcall := Returns.all c lowers _ _ i 0 (w.move i (.samples c)).2 [] is hmoved hi hdepth
      exact .head (step_feed hw i) (hcall.trans (ih hfed fun j hj => his j (List.mem_cons_of_mem _ hj)))

/-- What is so at any time: the calls that have not returned lead down to an instance that takes samples, and what
they have yet to deliver was made by instances above them. -/
structure Standing (lowers : List (Option Nat)) (t : CallStack σ) : Prop where
  driven : Driven lowers t.watched
  way : Way lowers (t.calls.map OpenCall.number)
  derived : ∀ k ∈ t.calls, ∀ u ∈ k.derived.map Prod.fst, SitsOn lowers u k.number
  waiting : ∀ i ∈ t.waiting, lowers[i]? = some none

namespace Standing
variable {lowers : List (Option Nat)} {t : CallStack σ}

theorem step (h : Standing lowers t) (c : Chunk) : Standing lowers (t.step c) := by
  obtain ⟨w, calls, waiting⟩ := t
  obtain ⟨hdriven, hway, hderived, hwaiting⟩ := h
  cases hw : w.flow.refusal with
  | some e =>
    cases calls with
    | nil =>
      rw [step_over_refused hw]
      exact ⟨hdriven, hway, hderived, nofun⟩
    | cons k calls =>
      rw [step_return_refused hw]
      exact ⟨hdriven, hway.tail, fun k' hk' => hderived k' (List.mem_cons_of_mem _ hk'), hwaiting⟩
  | none =>
    match calls, waiting with
    | [], [] =>
      rw [step_done]
      exact ⟨hdriven, hway, hderived, hwaiting⟩
    | [], i :: waiting =>
      rw [step_feed hw]
      have hi := hwaiting i List.mem_cons_self
      refine ⟨hdriven.move (.root hi) _, .root hi, fun k hk => ?_, fun j hj => hwaiting j (List.mem_cons_of_mem _ hj)⟩
      rw [List.mem_singleton.1 hk]
      exact nofun
    | ⟨i, [], []⟩ :: calls, _ =>
      rw [step_return]
      exact ⟨hdriven, hway.tail, fun k' hk' => hderived k' (List.mem_cons_of_mem _ hk'), hwaiting⟩
    | ⟨i, (u, ms) :: derived, marks⟩ :: calls, _ =>
      rw [step_call hw]
      have hown := hderived _ List.mem_cons_self
      refine ⟨hdriven, .upper (hown u List.mem_cons_self) hway, fun k hk => ?_, hwaiting⟩
      rcases List.mem_cons.1 hk with rfl | hk
      · exact nofun
      rcases List.mem_cons.1 hk with rfl | hk
      · exact fun v hv => hown v (List.mem_cons_of_mem _ hv)
      · exact hderived k (List.mem_cons_of_mem _ hk)
    | ⟨i, [], m :: marks⟩ :: calls, _ =>
      rw [step_mark hw]
      have habove : ∀ u ∈ w.flow.uppers i, SitsOn lowers u i := fun u hu => hdriven.links ▸ w.flow.mem_uppers.1 hu
      have hoffered := hdriven.offer m fun u hu => ⟨_, .upper (habove u hu) hway.level⟩
      refine ⟨hoffered.report i m, hway, fun k hk => ?_, hwaiting⟩
      rcases List.mem_cons.1 hk with rfl | hk
      · intro u hu
        rw [w.fst_offer] at hu
        exact habove u hu
      · exact hderived k (List.mem_cons_of_mem _ hk)

theorem steps (h : Standing lowers t) (c : Chunk) (n : Nat) : Standing lowers ((CallStack.step c)^[n] t) := by
  induction n generalizing t with
  | zero => exact h
  | succ n ih => exact ih (h.step c)

end Standing

/-- Two instances on top of each other that number the marks they take. -/
def loop (low high : Nat) : List (Instance Trial) :=
  [⟨"count", .count low (-1), some 1⟩, ⟨"count", .count high (-1), some 0⟩]

/-- A call that delivers a mark of one of them, or what the other one has made of it. -/
inductive Circling : CallStack Trial → Prop
  | mark {low high i : Nat} {reported : Array Mark} {log : List Happening} {m : Mark} {calls : List OpenCall}
      (hi : i < 2) : Circling ⟨⟨⟨loop low high, reported, none⟩, log⟩, ⟨i, [], [m]⟩ :: calls, []⟩
  | derived {low high i : Nat} {reported : Array Mark} {log : List Happening} {m : Mark} {calls : List OpenCall}
      (hi : i < 2) : Circling ⟨⟨⟨loop low high, reported, none⟩, log⟩, ⟨i, [(1 - i, [m])], []⟩ :: calls, []⟩

theorem offer_loop (low high : Nat) (reported : Array Mark) (log : List Happening) (m : Mark) {i : Nat} (hi : i < 2) :
    ∃ low' high' log' m', (⟨⟨loop low high, reported, none⟩, log⟩ : Watched Trial).offer m
        ((⟨loop low high, reported, none⟩ : Flow Trial).uppers i) =
      (⟨⟨loop low' high', reported, none⟩, log'⟩, [(1 - i, [m'])]) := by
  have hcount : ∀ seen : Nat, (Handout.mark m).reply (Trial.count seen (-1)) =
      ⟨.count (seen + 1) (-1), .ok [⟨m.start, m.stop, 0, [toString (seen + 1)]⟩]⟩ := by
    intro seen
    have hne : ((seen + 1 : Nat) : Int) ≠ -1 := by omega
    show Trial.derive (.count seen (-1)) m = _
    simp only [Trial.derive, if_neg hne]
  have hother : (⟨loop low high, reported, none⟩ : Flow Trial).uppers i = [1 - i] := by
    obtain rfl | rfl : i = 0 ∨ i = 1 := by omega
    · rfl
    · rfl
  rw [hother]
  obtain rfl | rfl : i = 0 ∨ i = 1 := by omega
  · have hmove := Watched.move_ok (w := ⟨⟨loop low high, reported, none⟩, log⟩) (i := 1) rfl rfl (hcount high)
    exact ⟨low, high + 1, _, _, by rw [Watched.offer, hmove]; rfl⟩
  · have hmove := Watched.move_ok (w := ⟨⟨loop low high, reported, none⟩, log⟩) (i := 0) rfl rfl (hcount low)
    exact ⟨low + 1, high, _, _, by rw [Watched.offer, hmove]; rfl⟩

theorem Circling.calls_ne_nil {t : CallStack Trial} (h : Circling t) : t.calls ≠ [] := by
  cases h with
  | mark => exact List.cons_ne_nil _ _
  | derived => exact List.cons_ne_nil _ _

theorem Circling.step {t : CallStack Trial} (h : Circling t) (c : Chunk) : Circling (t.step c) := by
  cases h with
  | @mark low high i reported log m calls hi =>
    obtain ⟨low', high', log', m', hoffer⟩ := offer_loop low high reported log m hi
    rw [step_mark rfl, hoffer]
    exact .derived hi
  | @derived low high i reported log m calls hi =>
    rw [step_call rfl]
    exact .mark (by omega)

/-- In a loop of instances a call would never return, if one was made. -/
theorem loop_never_returns (c : Chunk) (m : Mark) (n : Nat) :
    ((step c)^[n] ⟨⟨.ofInstances (loop 0 0), []⟩, [⟨0, [], [m]⟩], []⟩).calls ≠ [] := by
  refine Circling.calls_ne_nil ?_
  induction n with
  | zero => exact .mark (by decide)
  | succ n ih =>
    rw [Function.iterate_succ_apply']
    exact ih.step c

end CallStack

namespace Session
variable {σ : Type} [Protocol σ]

/-- The calls of a session that is handed a block. If the block is turned away, no call is made. -/
def callStack (s : Session σ) (b : Block) : CallStack σ :=
  let f := Flow.ofInstances s.instances
  match s.accept b.start b.stop b.data.size b.unitSize with
  | .error _ => ⟨⟨f, []⟩, [], []⟩
  | .ok () => ⟨⟨f, []⟩, [], f.roots⟩

omit [Protocol σ] in
theorem standing_callStack (s : Session σ) (b : Block) :
    CallStack.Standing (lowersOf s.instances) (s.callStack b) := by
  have hdriven : Driven (lowersOf s.instances) ⟨Flow.ofInstances s.instances, []⟩ := ⟨rfl, nofun⟩
  unfold callStack
  dsimp only
  split
  · exact ⟨hdriven, .nil, nofun, nofun⟩
  · exact ⟨hdriven, .nil, nofun, fun i => (Flow.mem_roots _).1⟩

/-- All calls for a block have returned, and have come to what the session does with the block. -/
structure Settled (s : Session σ) (b : Block) (t : CallStack σ) : Prop where
  calls : t.calls = []
  waiting : t.waiting = []
  instances : t.watched.flow.instances = (s.take b).session.instances
  log : t.watched.log = s.logOf b
  reported : s.reporting = true → t.watched.flow.reported.toList = (s.take b).reported
  outcome : s.accept b.start b.stop b.data.size b.unitSize = .ok () →
    ((s.take b).outcome = .ok () ↔ t.watched.flow.refusal = none)

theorem reaches_settled (s : Session σ) (b : Block) :
    ∃ t, CallStack.Reaches b.chunk (s.callStack b) t ∧ Settled s b t := by
  unfold callStack
  cases haccept : s.accept b.start b.stop b.data.size b.unitSize with
  | error e =>
    obtain ⟨htake, hlog⟩ := take_turned_away haccept
    refine ⟨_, .refl, rfl, rfl, ?_, hlog.symm, fun _ => ?_, fun h => ?_⟩
    · rw [htake]
      rfl
    · rw [htake]
      rfl
    · rw [haccept] at h
      cases h
  | ok =>
    obtain ⟨hinstances, -, hreported, houtcome, hlog⟩ := take_delivered haccept
    have hroots : ∀ i ∈ (Flow.ofInstances s.instances).roots, (lowersOf s.instances)[i]? = some none :=
      fun i => (Flow.mem_roots _).1
    refine ⟨⟨s.watch b, [], []⟩, CallStack.reaches_run rfl hroots, rfl, rfl, hinstances.symm, hlog.symm,
      fun hs => ?_, fun _ => houtcome⟩
    rw [hreported, if_pos hs]

/-- Whatever sits on what, the calls that a session makes for a block return, and come to what the block does to the
session. Those that have not returned are calls of different instances, each on top of the next one, down to an instance
that takes samples, so there are no more of them than instances. An instance from which no way leads down to the samples
is not called. -/
theorem calls_return (s : Session σ) (b : Block) :
    (∃ n, ∀ m, n ≤ m → Settled s b ((CallStack.step b.chunk)^[m] (s.callStack b))) ∧
      ∀ n,
        let t := (CallStack.step b.chunk)^[n] (s.callStack b)
        Way (lowersOf s.instances) (t.calls.map OpenCall.number) ∧ (t.calls.map OpenCall.number).Nodup ∧
          t.calls.length ≤ s.instances.length ∧
          ∀ i call r, .called i call r ∈ t.watched.log → ∃ d, Level (lowersOf s.instances) i d := by
  refine ⟨?_, fun n => ?_⟩
  · obtain ⟨⟨w, calls, waiting⟩, ⟨n, hn⟩, hsettled⟩ := s.reaches_settled b
    obtain rfl := hsettled.calls
    obtain rfl := hsettled.waiting
    refine ⟨n, fun m hm => ?_⟩
    obtain ⟨k, rfl⟩ := Nat.exists_eq_add_of_le' hm
    rw [Function.iterate_add_apply, hn, Function.iterate_fixed CallStack.step_done]
    exact hsettled
  · obtain ⟨hdriven, hway, -, -⟩ := (s.standing_callStack b).steps b.chunk n
    have hlength := hway.length_le
    rw [List.length_map, lowersOf, List.length_map] at hlength
    exact ⟨hway, hway.nodup, hlength, hdriven.called⟩

end Session
end LogicDecode
