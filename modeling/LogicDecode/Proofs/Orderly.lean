import LogicDecode.Proofs.WorkerMoves
import LogicDecode.Trial.Script

/-!
# Orderly engines

What a stack asks of its engine: a session for a chain of stages that is given one chunk after the other reports
marks of the decoders in the chain only, and these in the order of their starts (`Engine.Orderly`). A
script is such an engine for a chain that has the decoders of its marks, if these are in order
(`Script.orderly`).
-/

namespace LogicDecode
namespace Engine
variable {ε : Type} [Engine ε]

/-- An engine is handed the samples `[n, stop)`, in as many bytes as these have. -/
structure Sends (e : ε) (n stop : Nat) (sub : Submission) (e' : ε) : Prop where
  lt : n < stop
  sent : ∃ data unitSize, 0 < unitSize ∧ data.size = (stop - n) * unitSize ∧
    Engine.send e n stop data unitSize = (e', sub)

/-- A session for a chain of stages has taken the samples below a number and has reported marks. It was opened
when the engine had been used in any way since a state `e₀`. -/
inductive Serves (e₀ : ε) (stages : List Stage) : ε → Nat → List Mark → Prop
  | started {e e₁ e₂ e₃ : ε} {hz : Nat} (he : Reaches e₀ e) (ho : Engine.openSession e = (e₁, .ok ()))
      (hb : Stack.build e₁ none stages = (e₂, .ok ()))
      (hs : Engine.start (Engine.attach (Engine.setRate e₂ hz)) = (e₃, .ok ())) : Serves e₀ stages e₃ 0 []
  | sent {e e' : ε} {n stop : Nat} {ms : List Mark} {sub : Submission} (h : Serves e₀ stages e n ms)
      (hs : Sends e n stop sub e') (hok : sub.outcome = .ok ()) : Serves e₀ stages e' stop (ms ++ sub.reported)

theorem reaches_of_serves {e₀ e : ε} {stages : List Stage} {n : Nat} {ms : List Mark}
    (h : Serves e₀ stages e n ms) : Reaches e₀ e := by
  induction h with
  | @started e e₁ e₂ e₃ hz he ho hb hs =>
    have hopen := he.tail .openSession
    rw [ho] at hopen
    have hbuild := Relation.ReflTransGen.trans hopen (Stack.reaches_build stages e₁ none)
    rw [hb] at hbuild
    have hstart := ((hbuild.tail (.setRate hz)).tail .attach).tail .start
    rw [hs] at hstart
    exact hstart
  | @sent e e' n stop ms sub _ hs _ ih =>
    obtain ⟨data, unitSize, -, -, hsend⟩ := hs.sent
    have hsent := ih.tail (.send n stop data unitSize)
    rwa [hsend] at hsent

/-- The sessions of an engine report marks of their decoders only, and these in order. -/
def Orderly (e₀ : ε) (stages : List Stage) : Prop :=
  ∀ (e e' : ε) (n stop : Nat) (ms : List Mark) (sub : Submission), Serves e₀ stages e n ms → Sends e n stop sub e' →
    (∀ m ∈ ms ++ sub.reported, ∃ stage ∈ stages, stage.profile.id = m.decoder) ∧
      (ms ++ sub.reported).Pairwise fun a b => a.start ≤ b.start

end Engine

namespace Script
variable {s e e' : Script} {stages : List Stage} {n stop : Nat} {ms : List Mark} {sub : Submission}

theorem marks_send (s : Script) (start stop : Nat) (data : Bytes) (unitSize : Nat) :
    (s.send start stop data unitSize).1.marks = s.marks := by
  unfold send
  dsimp only
  split
  · split <;> rfl
  · rfl

theorem marks_of_reaches (h : Engine.Reaches s e) : e.marks = s.marks := by
  induction h with
  | refl => rfl
  | tail _ hlead ih =>
    cases hlead with
    | openSession | stack | setRate | attach | start | closeSession => exact ih
    | create setup =>
      refine Eq.trans ?_ ih
      show (Script.create _ setup).1.marks = _
      unfold create
      dsimp only
      split <;> rfl
    | send start stop data unitSize => exact (marks_send ..).trans ih

/-- What a script reports of a chunk are its marks that start there, unless it refuses the chunk. -/
theorem reported_of_sends (h : Engine.Sends e n stop sub e') :
    (∃ c, sub.outcome = .error c ∧ sub.reported = []) ∨
      sub.reported = e.marks.filter fun m => n ≤ m.start ∧ m.start < stop := by
  obtain ⟨data, unitSize, -, -, hs⟩ := h.sent
  have hsend : Script.send e n stop data unitSize = (e', sub) := hs
  unfold send at hsend
  dsimp only at hsend
  split at hsend
  · split at hsend
    · cases hsend
      exact .inl ⟨_, rfl, rfl⟩
    · cases hsend
      exact .inr rfl
  · cases hsend
    exact .inr rfl

/-- The marks below a sample, and then those of a chunk behind it, are the marks below the end of the chunk. -/
theorem filter_below {marks : List Mark} (hle : n ≤ stop) (hsorted : marks.Pairwise fun a b => a.start ≤ b.start) :
    (marks.filter fun m => m.start < n) ++ (marks.filter fun m => n ≤ m.start ∧ m.start < stop) =
      marks.filter fun m => m.start < stop := by
  induction marks with
  | nil => rfl
  | cons m rest ih =>
    obtain ⟨hm, hrest⟩ := List.pairwise_cons.1 hsorted
    by_cases hbelow : m.start < n
    · have hstop : m.start < stop := Nat.lt_of_lt_of_le hbelow hle
      have hnot : ¬ n ≤ m.start := Nat.not_le.2 hbelow
      simp only [List.filter_cons, hbelow, hstop, hnot, decide_true, decide_false, false_and, if_true,
        Bool.false_eq_true, if_false, List.cons_append, ← ih hrest]
    · -- no mark behind this one starts below `n`
      have hnone : ∀ m' ∈ m :: rest, ¬ m'.start < n := by
        intro m' hm'
        rcases List.mem_cons.1 hm' with rfl | hm'
        · exact hbelow
        · exact fun h => hbelow (Nat.lt_of_le_of_lt (hm m' hm') h)
      rw [List.filter_eq_nil_iff.2 fun m' hm' => by simpa using hnone m' hm', List.nil_append]
      exact List.filter_congr fun m' hm' => by simp [Nat.le_of_not_lt (hnone m' hm')]

theorem reported_of_serves (hsorted : s.marks.Pairwise fun a b => a.start ≤ b.start)
    (h : Engine.Serves s stages e n ms) : ms = s.marks.filter fun m => m.start < n := by
  induction h with
  | started => simp
  | sent hserves hsend hok ih =>
    rcases reported_of_sends hsend with ⟨c, hc, -⟩ | hreported
    · rw [hok] at hc
      cases hc
    · rw [ih, hreported, marks_of_reaches (Engine.reaches_of_serves hserves),
        filter_below (Nat.le_of_lt hsend.lt) hsorted]

/-- A script with marks of the chain's decoders in order is an orderly engine. -/
theorem orderly (hsorted : s.marks.Pairwise fun a b => a.start ≤ b.start)
    (hknown : ∀ m ∈ s.marks, ∃ stage ∈ stages, stage.profile.id = m.decoder) : Engine.Orderly s stages := by
  intro e e' n stop ms sub hserves hsend
  have hall : ∃ p : Mark → Bool, ms ++ sub.reported = s.marks.filter p := by
    rw [reported_of_serves hsorted hserves]
    rcases reported_of_sends hsend with ⟨c, -, hnone⟩ | hreported
    · exact ⟨_, by rw [hnone, List.append_nil]⟩
    · rw [hreported, marks_of_reaches (Engine.reaches_of_serves hserves),
        filter_below (Nat.le_of_lt hsend.lt) hsorted]
      exact ⟨_, rfl⟩
  obtain ⟨p, hp⟩ := hall
  rw [hp]
  exact ⟨fun m hm => hknown m (List.mem_filter.1 hm).1, hsorted.filter p⟩

end Script
end LogicDecode
