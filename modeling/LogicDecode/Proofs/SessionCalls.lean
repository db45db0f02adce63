import Mathlib.Data.List.Chain
import LogicDecode.Proofs.Forests
import LogicDecode.Proofs.Handing

/-!
# The calls of a session

Whatever a session is asked for, in whatever order, it gets its instances before it is started and its samples
afterwards, without a gap (`Host.served_in_order`). A call that the session refuses has no effect; only a block that a
decoder refuses has been delivered in part, and the session still expects the sample that it begins with. `Effect` lists
what a call can do, and all that is said of a sequence of calls is read off it, one call after the other.
-/

namespace LogicDecode
namespace Engine

/-- A call of an engine's session. -/
inductive Request where
  | create (t : Setup)
  | stack (lower upper : Nat)
  | setRate (hz : Nat)
  | attach
  | start
  | send (b : Block)

def Request.block? : Request → Option Block
  | .send b => some b
  | _ => none

/-- What is reported during a call, and how it ends: with the number of an instance if it makes one. -/
structure Response where
  reported : List Mark
  outcome : Outcome EngineError (Option Nat)

/-- The number of the instance that a call has made. -/
def Response.number (a : Response) : Option Nat :=
  match a.outcome with
  | .ok n => n
  | .error _ => none

section Calls
variable {ε : Type} [Engine ε]

/-- Makes a call. -/
def serve (e : ε) : Request → ε × Response
  | .create t => ((create e t).1, ⟨[], (create e t).2.map some⟩)
  | .stack l u => ((stack e l u).1, ⟨[], (Outcome.accept (stack e l u).2).map fun _ => none⟩)
  | .setRate hz => (setRate e hz, ⟨[], .ok none⟩)
  | .attach => (attach e, ⟨[], .ok none⟩)
  | .start => ((start e).1, ⟨[], (Outcome.accept (start e).2).map fun _ => none⟩)
  | .send b =>
    let (e', sub) := send e b.start b.stop b.data b.unitSize
    (e', ⟨sub.reported, sub.outcome.map fun _ => none⟩)

/-- A call that has been made. -/
structure Served (ε : Type) where
  before : ε
  request : Request
  response : Response
  after : ε

/-- The block that a call has handed over. -/
def Served.accepted (x : Served ε) : Option Block :=
  match x.request, x.response.outcome with
  | .send b, .ok _ => some b
  | _, _ => none

omit [Engine ε] in
theorem Served.accepted_of_error {x : Served ε}
    (h : ∀ b, x.request = .send b → ∃ f, x.response.outcome = .error f) : x.accepted = none := by
  unfold accepted
  split
  · rename_i b _ hrequest hok
    obtain ⟨f, hf⟩ := h b hrequest
    rw [hok] at hf
    cases hf
  · rfl

/-- Makes calls one after the other, those behind one that fails as well. -/
def served (e : ε) : List Request → List (Served ε)
  | [] => []
  | q :: qs => ⟨e, q, (serve e q).2, (serve e q).1⟩ :: served (serve e q).1 qs

end Calls
end Engine

open Engine

/-- Why a session turns samples away before any decoder has seen them. -/
def Failure.TurnsAway : Failure EngineError → Prop
  | .refused .notStarted | .refused (.outOfOrder ..) | .refused (.chunkSize ..) | .fault .overflow => True
  | _ => False

variable {σ : Type} [Protocol σ]

/-- What a call can do to a session. -/
inductive Effect (s : Session σ) : Request → Response → Session σ → Prop
  | refused {q : Request} {f : Failure EngineError} (hq : q.block? = none) : Effect s q ⟨[], .error f⟩ s
  | turnedAway {b : Block} {f : Failure EngineError} (hf : f.TurnsAway) : Effect s (.send b) ⟨[], .error f⟩ s
  | create {t : Setup} (decoder : String) (state : σ) (hs : s.started = false) :
      Effect s (.create t) ⟨[], .ok (some s.instances.length)⟩
        { s with instances := s.instances ++ [⟨decoder, state, none⟩] }
  | stack {l u : Nat} {s' : Session σ} (hs : s.started = false) (hstack : s.stack l u = .ok s') :
      Effect s (.stack l u) ⟨[], .ok none⟩ s'
  | setRate {hz : Nat} : Effect s (.setRate hz) ⟨[], .ok none⟩ (s.setRate hz)
  | attach : Effect s .attach ⟨[], .ok none⟩ s.attach
  | start {s' : Session σ} (hstart : s.start = .ok s') : Effect s .start ⟨[], .ok none⟩ s'
  | send {b : Block} (haccept : s.accept b.start b.stop b.data.size b.unitSize = .ok ())
      (hok : (s.take b).outcome = .ok ()) : Effect s (.send b) ⟨(s.take b).reported, .ok none⟩ (s.take b).session
  | failed {b : Block} {e : EngineError} (haccept : s.accept b.start b.stop b.data.size b.unitSize = .ok ())
      (herror : (s.take b).outcome = .error (.refused e)) :
      Effect s (.send b) ⟨(s.take b).reported, .error (.refused e)⟩ (s.take b).session

namespace Session
variable {s s' : Session σ}

section Accepting
omit [Protocol σ]
variable {start stop size unitSize : Nat}

theorem accept_of_not_started (hs : s.started = false) :
    s.accept start stop size unitSize = .error (.refused .notStarted) := by
  simp only [accept, hs]
  rfl

theorem accept_of_gap (hs : s.started = true) {expected : Nat} (hnext : s.next = some expected)
    (hne : expected ≠ start) :
    s.accept start stop size unitSize = .error (.refused (.outOfOrder expected start)) := by
  simp only [accept, hs, hnext, if_pos hne]
  rfl

/-- Samples that are not turned away begin where the last ones ended. -/
theorem expected_of_accept (h : s.accept start stop size unitSize = .ok ()) :
    s.started = true ∧ (s.next = none ∨ s.next = some start) := by
  cases hs : s.started with
  | false =>
    rw [accept_of_not_started hs] at h
    cases h
  | true =>
    refine ⟨rfl, ?_⟩
    cases hnext : s.next with
    | none => exact .inl rfl
    | some expected =>
      by_cases hne : expected = start
      · exact .inr (congrArg some hne)
      · rw [accept_of_gap hs hnext hne] at h
        cases h

theorem turnsAway_of_accept {f : Failure EngineError} (h : s.accept start stop size unitSize = .error f) :
    f.TurnsAway := by
  cases hs : s.started with
  | false =>
    rw [accept_of_not_started hs] at h
    cases h
    trivial
  | true =>
    by_cases hnext : s.next = none ∨ s.next = some start
    · rw [accept_eq hs hnext] at h
      -- what is left to look at is the size that the range calls for
      cases hmul : checkedMul (stop - start) unitSize with
      | error fault =>
        rw [hmul] at h
        unfold checkedMul at hmul
        split at hmul
        · cases hmul
        · cases hmul
          cases h
          trivial
      | ok expected =>
        rw [hmul] at h
        change (if _ then _ else _) = _ at h
        split at h
        · cases h
          trivial
        · cases h
    · obtain ⟨hnone, hsome⟩ := not_or.1 hnext
      obtain ⟨expected, hexpected⟩ := Option.ne_none_iff_exists'.1 hnone
      have hne : expected ≠ start := fun heq => hsome (heq ▸ hexpected)
      rw [accept_of_gap hs hexpected hne] at h
      cases h
      trivial

end Accepting

omit [Protocol σ] in
theorem not_started_of_create {t : Setup} {n : Nat} (h : s.create t = .ok (s', n)) : s.started = false := by
  cases hs : s.started with
  | false => rfl
  | true =>
    rw [create, if_pos hs] at h
    cases h

omit [Protocol σ] in
theorem not_started_of_stack {l u : Nat} (h : s.stack l u = .ok s') : s.started = false := by
  cases hs : s.started with
  | false => rfl
  | true =>
    simp only [stack, if_pos hs] at h
    cases h

theorem start_eq_ok (h : s.start = .ok s') : s.started = false ∧ s' = { s with
    instances := s.instances.map fun x => { x with state := Protocol.start x.state s.rate }, started := true } := by
  unfold start at h
  split at h
  · cases h
  · rename_i hs
    cases h
    exact ⟨by simpa using hs, rfl⟩

theorem fields_take (s : Session σ) (b : Block) : (s.take b).session.started = s.started ∧
    (s.take b).session.next = match (s.take b).outcome with
      | .ok _ => some b.stop
      | .error _ => s.next :=
  s.fields_send b.start b.stop b.data b.unitSize

end Session

/-- A call of a session does what `Effect` says, and leaves the session open. -/
theorem Host.exists_effect (r : Registry σ) (s : Session σ) (q : Request) :
    ∃ s', (serve (⟨r, some s⟩ : Host σ) q).1 = ⟨r, some s'⟩ ∧ Effect s q (serve (⟨r, some s⟩ : Host σ) q).2 s' := by
  cases q with
  | create t =>
    simp only [serve, Engine.create, Host.create]
    cases hcreate : s.create t with
    | error f => exact ⟨s, rfl, .refused rfl⟩
    | ok p =>
      obtain ⟨s', n⟩ := p
      obtain ⟨reg, state, -, -, rfl, rfl⟩ := Session.create_eq_ok hcreate
      exact ⟨_, rfl, .create reg.profile.id state (Session.not_started_of_create hcreate)⟩
  | stack l u =>
    simp only [serve, Engine.stack, Host.update]
    cases hstack : s.stack l u with
    | error e => exact ⟨s, rfl, .refused rfl⟩
    | ok s' => exact ⟨s', rfl, .stack (Session.not_started_of_stack hstack) hstack⟩
  | setRate hz => exact ⟨s.setRate hz, rfl, .setRate⟩
  | attach => exact ⟨s.attach, rfl, .attach⟩
  | start =>
    simp only [serve, Engine.start, Host.update]
    cases hstart : s.start with
    | error e => exact ⟨s, rfl, .refused rfl⟩
    | ok s' => exact ⟨s', rfl, .start hstart⟩
  | send b =>
    have hserve : serve (⟨r, some s⟩ : Host σ) (.send b) =
        (⟨r, some (s.take b).session⟩, ⟨(s.take b).reported, (s.take b).outcome.map fun _ => none⟩) := rfl
    rw [hserve]
    refine ⟨(s.take b).session, rfl, ?_⟩
    cases haccept : s.accept b.start b.stop b.data.size b.unitSize with
    | error f =>
      rw [(Session.take_turned_away haccept).1]
      exact .turnedAway (Session.turnsAway_of_accept haccept)
    | ok =>
      cases hend : (s.take b).outcome with
      | ok => exact .send haccept hend
      | error f =>
        obtain ⟨e, -, -, rfl, -⟩ := Session.refused_of_accept haccept hend
        exact .failed haccept hend

namespace Effect
variable {s s' : Session σ} {q : Request} {a : Response}

/-- An instance gets the number of those that were there before. -/
theorem number (h : Effect s q a s') :
    a.number = none ∧ s'.instances.length = s.instances.length ∨
      a.number = some s.instances.length ∧ s'.instances.length = s.instances.length + 1 := by
  have htake : ∀ b, (s.take b).session.instances.length = s.instances.length := by
    intro b
    have hlinks := congrArg List.length (s.told b).lowers
    rwa [lowersOf, List.length_map, lowersOf, List.length_map] at hlinks
  cases h with
  | refused => exact .inl ⟨rfl, rfl⟩
  | turnedAway => exact .inl ⟨rfl, rfl⟩
  | create => exact .inr ⟨rfl, List.length_append⟩
  | stack _ hstack =>
    obtain ⟨x, -, -, -, rfl⟩ := Session.stack_eq_ok hstack
    exact .inl ⟨rfl, List.length_set⟩
  | setRate => exact .inl ⟨rfl, rfl⟩
  | attach => exact .inl ⟨rfl, rfl⟩
  | start hstart =>
    obtain ⟨-, rfl⟩ := Session.start_eq_ok hstart
    exact .inl ⟨rfl, List.length_map _⟩
  | @send b => exact .inl ⟨rfl, htake b⟩
  | @failed b => exact .inl ⟨rfl, htake b⟩

/-- The next sample is another one only if a block is accepted, and then it was the first one of the block. -/
theorem next (h : Effect s q a s') :
    (∃ b, q = .send b ∧ a.outcome = .ok none ∧ (s.next = none ∨ s.next = some b.start) ∧ s'.next = some b.stop) ∨
      (∀ b, q = .send b → ∃ f, a.outcome = .error f) ∧ s'.next = s.next := by
  cases h with
  | refused => exact .inr ⟨fun _ _ => ⟨_, rfl⟩, rfl⟩
  | turnedAway => exact .inr ⟨fun _ _ => ⟨_, rfl⟩, rfl⟩
  | create => exact .inr ⟨nofun, rfl⟩
  | stack _ hstack =>
    obtain ⟨x, -, -, -, rfl⟩ := Session.stack_eq_ok hstack
    exact .inr ⟨nofun, rfl⟩
  | setRate => exact .inr ⟨nofun, rfl⟩
  | attach => exact .inr ⟨nofun, rfl⟩
  | start hstart =>
    obtain ⟨-, rfl⟩ := Session.start_eq_ok hstart
    exact .inr ⟨nofun, rfl⟩
  | @send b haccept hok =>
    obtain ⟨-, hnext⟩ := s.fields_take b
    rw [hok] at hnext
    exact .inl ⟨b, rfl, rfl, (Session.expected_of_accept haccept).2, hnext⟩
  | @failed b e haccept herror =>
    obtain ⟨-, hnext⟩ := s.fields_take b
    rw [herror] at hnext
    exact .inr ⟨fun _ _ => ⟨_, rfl⟩, hnext⟩

/-- A session that has been started gets no instances any more, and those that it has stay where they are. -/
theorem steady (h : Effect s q a s') (hs : s.started = true) :
    s'.started = true ∧ lowersOf s'.instances = lowersOf s.instances ∧ a.number = none := by
  cases h with
  | refused => exact ⟨hs, rfl, rfl⟩
  | turnedAway => exact ⟨hs, rfl, rfl⟩
  | create _ _ hnot => cases hs.symm.trans hnot
  | stack hnot => cases hs.symm.trans hnot
  | setRate => exact ⟨hs, rfl, rfl⟩
  | attach => exact ⟨hs, rfl, rfl⟩
  | start hstart => cases hs.symm.trans (Session.start_eq_ok hstart).1
  | @send b => exact ⟨(s.fields_take b).1.trans hs, (s.told b).lowers, rfl⟩
  | @failed b => exact ⟨(s.fields_take b).1.trans hs, (s.told b).lowers, rfl⟩

theorem started (h : Effect s .start a s') (hok : a.outcome = .ok none) : s'.started = true := by
  cases h with
  | refused => cases hok
  | start hstart =>
    obtain ⟨-, rfl⟩ := Session.start_eq_ok hstart
    rfl

/-- A call that fails has no effect, if not because a decoder refuses what it is given. -/
theorem unchanged (h : Effect s q a s') {f : Failure EngineError} (hf : a.outcome = .error f)
    (hinside : ∀ b i call e, q = .send b → f = .refused e → .called i call (.error e) ∉ s.logOf b) :
    s' = s ∧ a.reported = [] ∧ ∀ b, q = .send b → f.TurnsAway := by
  cases h with
  | refused hq =>
    refine ⟨rfl, rfl, ?_⟩
    rintro b rfl
    cases hq
  | turnedAway haway =>
    cases hf
    exact ⟨rfl, rfl, fun _ _ => haway⟩
  | @failed b e haccept herror =>
    cases hf
    obtain ⟨e', i, call, he, hcall⟩ := Session.refused_of_accept haccept herror
    cases he
    exact absurd hcall (hinside b i call e rfl rfl)
  | create => cases hf
  | stack => cases hf
  | setRate => cases hf
  | attach => cases hf
  | start => cases hf
  | send => cases hf

end Effect

namespace Host
variable {r : Registry σ} {s : Session σ} {qs : List Request} {x : Served (Host σ)}

/-- What each instance of the open session sits on. -/
def links (h : Host σ) : List (Option Nat) := (h.session.map fun s => lowersOf s.instances).getD []

/-- The sample that the next block has to begin with. -/
def expected (h : Host σ) : Option Nat := h.session.bind Session.next

/-- A block has been handed over, and is refused because a decoder refuses what it is given. -/
def RefusedInside (x : Served (Host σ)) : Prop :=
  ∃ s b i call e, x.before.session = some s ∧ x.request = .send b ∧ x.response.outcome = .error (.refused e) ∧
    .called i call (.error e) ∈ s.logOf b

theorem effect_of_served (hx : x ∈ served ⟨r, some s⟩ qs) :
    ∃ s₁ s₂, x.before = ⟨r, some s₁⟩ ∧ x.after = ⟨r, some s₂⟩ ∧ Effect s₁ x.request x.response s₂ := by
  induction qs generalizing s with
  | nil => cases hx
  | cons q qs ih =>
    obtain ⟨s', hserve, heffect⟩ := exists_effect r s q
    rcases List.mem_cons.1 hx with rfl | hx
    · exact ⟨s, s', rfl, hserve, heffect⟩
    · rw [hserve] at hx
      exact ih hx

theorem numbers_served (r : Registry σ) (s : Session σ) (qs : List Request) :
    ∃ n, (served (⟨r, some s⟩ : Host σ) qs).filterMap (·.response.number) = List.range' s.instances.length n := by
  induction qs generalizing s with
  | nil => exact ⟨0, rfl⟩
  | cons q qs ih =>
    obtain ⟨s', hserve, heffect⟩ := exists_effect r s q
    obtain ⟨n, hn⟩ := ih s'
    rw [served, hserve, List.filterMap_cons, hn]
    rcases heffect.number with ⟨hnumber, hlength⟩ | ⟨hnumber, hlength⟩
    · rw [hnumber, hlength]
      exact ⟨n, rfl⟩
    · rw [hnumber, hlength]
      exact ⟨n + 1, List.range'_succ.symm⟩

theorem steady_served (hs : s.started = true) :
    ∀ x ∈ served (⟨r, some s⟩ : Host σ) qs, x.response.number = none ∧ x.after.links = lowersOf s.instances := by
  induction qs generalizing s with
  | nil => exact fun x hx => absurd hx List.not_mem_nil
  | cons q qs ih =>
    obtain ⟨s', hserve, heffect⟩ := exists_effect r s q
    obtain ⟨hstarted, hlinks, hnumber⟩ := heffect.steady hs
    intro x hx
    rcases List.mem_cons.1 hx with rfl | hx
    · refine ⟨hnumber, ?_⟩
      rw [hserve]
      exact hlinks
    · rw [hserve] at hx
      rw [← hlinks]
      exact ih hstarted x hx

theorem pairwise_served (r : Registry σ) (s : Session σ) (qs : List Request) :
    (served (⟨r, some s⟩ : Host σ) qs).Pairwise fun x y => x.request = .start → x.response.outcome = .ok none →
      y.response.number = none ∧ y.after.links = x.after.links := by
  induction qs generalizing s with
  | nil => exact .nil
  | cons q qs ih =>
    obtain ⟨s', hserve, heffect⟩ := exists_effect r s q
    rw [served, hserve]
    refine .cons (fun y hy hstart hok => ?_) (ih s')
    cases hstart
    exact steady_served (heffect.started hok) y hy

theorem contiguous_served (r : Registry σ) (s : Session σ) (qs : List Request) :
    ((served (⟨r, some s⟩ : Host σ) qs).filterMap Served.accepted).IsChain (fun a b => b.start = a.stop) ∧
      ∀ b ∈ ((served (⟨r, some s⟩ : Host σ) qs).filterMap Served.accepted).head?,
        s.next = none ∨ s.next = some b.start := by
  induction qs generalizing s with
  | nil => exact ⟨.nil, nofun⟩
  | cons q qs ih =>
    obtain ⟨s', hserve, heffect⟩ := exists_effect r s q
    obtain ⟨hchain, hhead⟩ := ih s'
    rw [served, hserve, List.filterMap_cons]
    rcases heffect.next with ⟨b, rfl, hok, hb, hnext⟩ | ⟨hfailed, hnext⟩
    · have haccepted : Served.accepted (⟨⟨r, some s⟩, .send b, (serve (⟨r, some s⟩ : Host σ) (.send b)).2,
          ⟨r, some s'⟩⟩ : Served (Host σ)) = some b := by
        simp only [Served.accepted, hok]
      rw [haccepted]
      refine ⟨List.isChain_cons.2 ⟨fun b' hb' => ?_, hchain⟩, fun b' hb' => ?_⟩
      · rcases hhead b' hb' with hnone | hsome
        · rw [hnext] at hnone
          cases hnone
        · rw [hnext] at hsome
          exact (Option.some.inj hsome).symm
      · cases hb'
        exact hb
    · rw [Served.accepted_of_error hfailed]
      rw [hnext] at hhead
      exact ⟨hchain, hhead⟩

/-- In whatever order a session is called, the instances that are made are numbered one after the other; a call that
fails changes and reports nothing, unless a decoder has refused a part of a block, and then the session expects the same
sample as before; no instance is made or stacked once the session has been started; and each block that is accepted
begins where the last one has ended. A decoder may name any cause, also one for which the session turns a block away, so
`RefusedInside` goes by the calls of the decoders and not by the cause. -/
theorem served_in_order (r : Registry σ) (qs : List Request) :
    let calls := served (openSession (Host.ofRegistry r)).1 qs
    (∃ n, calls.filterMap (·.response.number) = List.range n) ∧
      (∀ x ∈ calls, ∀ f, x.response.outcome = .error f → ¬ RefusedInside x →
        x.after = x.before ∧ x.response.reported = [] ∧ ∀ b, x.request = .send b → f.TurnsAway) ∧
      (∀ x ∈ calls, RefusedInside x → x.after.expected = x.before.expected) ∧
      (calls.Pairwise fun x y => x.request = .start → x.response.outcome = .ok none →
        y.response.number = none ∧ y.after.links = x.after.links) ∧
      (calls.filterMap Served.accepted).IsChain fun a b => b.start = a.stop := by
  intro calls
  refine ⟨?_, fun x hx f hf hinside => ?_, fun x hx hinside => ?_, pairwise_served r _ qs, (contiguous_served r _ qs).1⟩
  · obtain ⟨n, hn⟩ := numbers_served r (.ofRegistry r) qs
    exact ⟨n, hn.trans (List.range_eq_range' ..).symm⟩
  · obtain ⟨s₁, s₂, hbefore, hafter, heffect⟩ := effect_of_served hx
    obtain ⟨rfl, hreported, hsend⟩ := heffect.unchanged hf fun b i call e hq he hcall =>
      hinside ⟨s₁, b, i, call, e, congrArg Host.session hbefore, hq, he ▸ hf, hcall⟩
    exact ⟨hafter.trans hbefore.symm, hreported, hsend⟩
  · obtain ⟨s₁, s₂, hbefore, hafter, heffect⟩ := effect_of_served hx
    obtain ⟨-, b, -, -, e, -, hq, hf, -⟩ := hinside
    rcases heffect.next with ⟨b', -, hok, -, -⟩ | ⟨-, hnext⟩
    · rw [hok] at hf
      cases hf
    · rw [hafter, hbefore]
      exact hnext

/-- Blocks that come too early, leave a gap, or hold a sample that the decoder fails on. -/
example :
    (served (openSession (Host.ofRegistry Trial.registry)).1 [.create ⟨"rate", [], [("at", .int 3)]⟩,
      .send ⟨0, 1, #[0], 1⟩, .start, .send ⟨0, 2, #[0, 0], 1⟩, .send ⟨3, 4, #[0], 1⟩,
      .send ⟨2, 4, #[0, 0], 1⟩]).map (fun x => (x.response.outcome, x.after.expected)) =
      [(.ok (some 0), none), (.error (.refused .notStarted), none), (.ok none, none), (.ok none, some 2),
        (.error (.refused (.outOfOrder 2 3)), some 2), (.error (.refused (.failed "rate failed at 3")), some 2)] := by
  decide +kernel

end Host
end LogicDecode
