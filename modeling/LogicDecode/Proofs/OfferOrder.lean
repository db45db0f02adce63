import LogicDecode.Proofs.SessionLogs
import LogicDecode.Trial.Decoders

/-!
# Marks are offered before they are reported

A mark is offered to the instances above first, and reported when all of them have taken it. So the
report of a mark never comes before an offer of it, and an instance that refuses a mark keeps it from
being reported. `Session.offers_before_reports` says so of all that can happen in a session.
-/

namespace LogicDecode

/-- Whoever is offered a mark finds it reported, as the marks it was offered before. -/
def ReportedFirst (lowers : List (Option Nat)) (log : List Happening) : Prop :=
  ∀ pre u m r post l, log = pre ++ .called u (.mark m) r :: post → lowers[u]? = some (some l) →
    offersTo u pre ++ [m] <+: reportsOf l pre

/-- What instances were offered is reported in the end. -/
def ReportsKept (lowers : List (Option Nat)) (log : List Happening) : Prop :=
  ∀ u l, lowers[u]? = some (some l) → offersTo u log <+: reportsOf l log

section Logs
variable {lowers : List (Option Nat)} {log : List Happening}

/-- An offer finds reported what the instance was offered before, and nothing more. -/
theorem Lawful.offer (hs : Lawful lowers log) {pre post : List Happening} {u : Nat} {m : Mark}
    {r : Except EngineError (List Mark)} (h : log = pre ++ .called u (.mark m) r :: post) :
    ∃ l, lowers[u]? = some (some l) ∧ reportsOf l pre = offersTo u pre := hs pre _ post h

theorem Lawful.reportedFirst_iff (hs : Lawful lowers log) :
    ReportedFirst lowers log ↔ ∀ u m r, .called u (.mark m) r ∉ log := by
  constructor
  · intro hfirst u m r hmem
    obtain ⟨pre, post, h⟩ := List.append_of_mem hmem
    obtain ⟨l, hl, hreports⟩ := hs.offer h
    have hle := (hfirst pre u m r post l h hl).length_le
    rw [hreports, List.length_append, List.length_singleton] at hle
    omega
  · intro hnone pre u m r post l h
    refine absurd ?_ (hnone u m r)
    rw [h]
    exact List.mem_append_right _ (List.mem_cons_self ..)

/-- A refused offer is the last thing that happens, and its mark alone is not reported. -/
theorem Lawful.refused_offer (hs : Lawful lowers log) {e : EngineError} (hstop : Stopped lowers log e) {u : Nat}
    {m : Mark} {e' : EngineError} (h : .called u (.mark m) (.error e') ∈ log) :
    ∃ pre l, log = pre ++ [.called u (.mark m) (.error e')] ∧ lowers[u]? = some (some l) ∧
      offersTo u log = reportsOf l log ++ [m] := by
  obtain ⟨pre, i, call, rfl, hclean, -⟩ := hstop
  rcases List.mem_append.1 h with h | h
  · exact absurd h (hclean u (.mark m) e')
  · cases List.mem_singleton.1 h
    obtain ⟨l, hl, hreports⟩ := hs.offer rfl
    refine ⟨pre, l, rfl, hl, ?_⟩
    simp [hreports, Handout.marks]

end Logs

namespace Session
variable {σ : Type} [Protocol σ]

/-- Whatever is handed to a session: an offer finds reported just what the instance was offered before,
so all offers are reported first only if there is none; and what was offered is reported in the end
unless an offer is refused, which then is the last thing that happens and loses its mark. -/
theorem offers_before_reports (s : Session σ) (hs : s.reporting = true) (bs : List Block) :
    (s.takes bs).map Delivered.reported = (s.logs bs).map reportsIn ∧
      ∀ log ∈ s.logs bs,
        (∀ pre u m r post, log = pre ++ .called u (.mark m) r :: post →
          ∃ l, (lowersOf s.instances)[u]? = some (some l) ∧ reportsOf l pre = offersTo u pre) ∧
        (ReportedFirst (lowersOf s.instances) log ↔ ∀ u m r, .called u (.mark m) r ∉ log) ∧
        (ReportsKept (lowersOf s.instances) log ↔ ∀ u m e, .called u (.mark m) (.error e) ∉ log) ∧
        (∀ u m e, .called u (.mark m) (.error e) ∈ log →
          ∃ pre l, log = pre ++ [.called u (.mark m) (.error e)] ∧
            (lowersOf s.instances)[u]? = some (some l) ∧ offersTo u log = reportsOf l log ++ [m]) := by
  refine ⟨reported_takes hs bs, fun log hlog => ?_⟩
  obtain ⟨s', b, hlowers, rfl⟩ := exists_of_mem_logs hlog
  have ht := told s' b
  rw [← hlowers]
  have hrefused : ∀ u m e, .called u (.mark m) (.error e) ∈ s'.logOf b →
      ∃ pre l, s'.logOf b = pre ++ [.called u (.mark m) (.error e)] ∧
        (lowersOf s'.instances)[u]? = some (some l) ∧
        offersTo u (s'.logOf b) = reportsOf l (s'.logOf b) ++ [m] := by
    intro u m e hmem
    rcases ht.ended with ⟨hclean, -⟩ | ⟨e', hstop⟩
    · exact absurd hmem (hclean u (.mark m) e)
    · exact ht.lawful.refused_offer hstop hmem
  refine ⟨fun pre u m r post h => ht.lawful.offer h, ht.lawful.reportedFirst_iff, ⟨?_, ?_⟩, hrefused⟩
  · -- a refused mark was offered and is not reported, so one report is missing
    intro hkept u m e hmem
    obtain ⟨pre, l, -, hl, hoffers⟩ := hrefused u m e hmem
    have hle := (hkept u l hl).length_le
    rw [hoffers, List.length_append, List.length_singleton] at hle
    omega
  · intro hnone u l hu
    rcases ht.ended with ⟨-, hall⟩ | ⟨e, pre, i, call, hlog, -, hcall⟩
    · exact hall u l hu ▸ List.prefix_rfl
    · cases call with
      | samples => exact hcall rfl u l hu ▸ List.prefix_rfl
      | mark m =>
        refine absurd ?_ (hnone i m e)
        rw [hlog]
        exact List.mem_append_right _ (List.mem_singleton_self _)

/-- A counter that fails on the first mark below it: the mark is offered, and never reported. -/
theorem offers_before_reports_refused :
    let s : Session Trial := ⟨Trial.registry, [⟨"high", .high 0 0, none⟩, ⟨"count", .count 0 1, some 0⟩],
      0, true, true, none⟩
    s.reporting = true ∧ ∀ log ∈ s.logs [⟨0, 1, #[1], 1⟩],
      ¬ ReportedFirst (lowersOf s.instances) log ∧ ¬ ReportsKept (lowersOf s.instances) log := by
  intro s
  refine ⟨rfl, fun log hlog => ?_⟩
  obtain ⟨-, hfirst, hkept, -⟩ := (s.offers_before_reports rfl [⟨0, 1, #[1], 1⟩]).2 log hlog
  have hlogs : s.logs [⟨0, 1, #[1], 1⟩] =
      [[.called 0 (.samples ⟨0, #[1], 1⟩) (.ok [⟨0, 1, "high", 0, ["high"]⟩]),
        .called 1 (.mark ⟨0, 1, "high", 0, ["high"]⟩) (.error (.failed s!"count failed at {1}"))]] := rfl
  rw [hlogs, List.mem_singleton] at hlog
  rw [hfirst, hkept, hlog]
  refine ⟨fun hnone => hnone 1 _ _ (List.mem_cons_of_mem _ (List.mem_cons_self ..)), fun hnone => ?_⟩
  exact hnone 1 _ _ (List.mem_cons_of_mem _ (List.mem_cons_self ..))

end Session

end LogicDecode
