import LogicDecode.Proofs.Happenings
import LogicDecode.Proofs.Levels
import LogicDecode.Proofs.Replies
import Mathlib.Logic.Function.Basic

/-!
# The invariant of a delivery

Between two marks, the marks that instances took from the one they sit on are those that are reported
of it, and what an instance made is reported but for what it is owed. `Balanced` says so of a delivery
that goes on; in the middle of a mark, `ahead` are the marks that are taken and not reported yet.

`Steady` adds what holds whether the delivery goes on or not: everything was allowed when it happened
(`Lawful`), and a refusal is the last thing that happened (`Stopped`). Each move keeps it, and a delivery
pays what an instance is owed (`Steady.deliver`).
-/

namespace LogicDecode

/-- What may happen after a log: samples go to the instances without a lower one, a mark to one that has
taken what is reported of its lower one, and a mark is reported if it was made of what is reported. -/
def Allowed (lowers : List (Option Nat)) (log : List Happening) : Happening → Prop
  | .called i (.samples _) _ => lowers[i]? = some none
  | .called u (.mark _) _ => ∃ l, lowers[u]? = some (some l) ∧ reportsOf l log = offersTo u log
  | .reported u m => ∀ l, lowers[u]? = some (some l) →
      reportsOf u log ++ [m] <+: ((answersOf u log).take (reportsOf l log).length).flatten

/-- Everything was allowed when it happened. -/
def Lawful (lowers : List (Option Nat)) (log : List Happening) : Prop :=
  ∀ pre h post, log = pre ++ h :: post → Allowed lowers pre h

/-- The last thing that happened is a refusal; unless it was that of a mark, all marks that were taken
are reported. -/
def Stopped (lowers : List (Option Nat)) (log : List Happening) (e : EngineError) : Prop :=
  ∃ pre i call, log = pre ++ [.called i call (.error e)] ∧ Clean pre ∧
    (call.marks = [] → ∀ u l, lowers[u]? = some (some l) → offersTo u log = reportsOf l log)

namespace Lawful
variable {lowers : List (Option Nat)} {log : List Happening}

theorem nil : Lawful lowers [] := fun pre h post heq => by
  cases pre <;> cases heq

theorem snoc (hs : Lawful lowers log) {h : Happening} (ha : Allowed lowers log h) :
    Lawful lowers (log ++ [h]) := by
  intro pre h' post heq
  rcases List.eq_nil_or_concat post with rfl | ⟨post', last, rfl⟩
  · obtain ⟨rfl, hlast⟩ := List.append_inj' heq rfl
    cases hlast
    exact ha
  · have heq' : log ++ [h] = (pre ++ h' :: post') ++ [last] := by simpa using heq
    obtain ⟨hlog, -⟩ := List.append_inj' heq' rfl
    exact hs pre h' post' hlog

theorem allowed (hs : Lawful lowers log) {h : Happening} (hmem : h ∈ log) :
    ∃ pre, pre <+: log ∧ Allowed lowers pre h := by
  obtain ⟨pre, post, rfl⟩ := List.append_of_mem hmem
  exact ⟨pre, List.prefix_append .., hs pre h post rfl⟩

theorem no_offers (hs : Lawful lowers log) {i : Nat} (hi : lowers[i]? = some none) : offersTo i log = [] := by
  refine List.flatMap_eq_nil_iff.2 fun call hcall => ?_
  obtain ⟨r, hmem⟩ := mem_callsOf.1 hcall
  obtain ⟨pre, -, ha⟩ := hs.allowed hmem
  cases call with
  | samples => rfl
  | mark m =>
    obtain ⟨l, hl, -⟩ := ha
    rw [hi] at hl
    cases hl

end Lawful

variable {σ : Type} [Protocol σ]

/-- Each instance is in the state, and made the marks, that what it was given leads to. -/
def Ran (xs ys : List (Instance σ)) (log : List Happening) : Prop :=
  ∀ i x, xs[i]? = some x → ∃ t fs, ys[i]? = some { x with state := t } ∧
    takeAll Handout.reply x.state (callsOf i log) = ⟨t, .ok fs⟩ ∧ madeBy i log = fs.map (Finding.sign x.decoder)

namespace Ran
variable {xs ys zs : List (Instance σ)} {log log' : List Happening}

theorem nil : Ran xs xs [] := fun _ x hx => ⟨x.state, [], hx, rfl, rfl⟩

theorem append (h : Ran xs ys log) (h' : Ran ys zs log') : Ran xs zs (log ++ log') := by
  intro i x hx
  obtain ⟨t, fs, ht, htake, hmade⟩ := h i x hx
  obtain ⟨t', gs, ht', htake', hmade'⟩ := h' i _ ht
  refine ⟨t', fs ++ gs, ht', ?_, ?_⟩
  · rw [callsOf_append]
    exact takeAll_append htake htake'
  · rw [madeBy_append, hmade, hmade', List.map_append]

/-- An accepted call moves the instance that is called, and no other one. -/
theorem called {i : Nat} {y : Instance σ} {call : Handout} {s : σ} {fs : List Finding} (hy : ys[i]? = some y)
    (hr : call.reply y.state = ⟨s, .ok fs⟩) :
    Ran ys (ys.set i { y with state := s }) [.called i call (.ok (fs.map (Finding.sign y.decoder)))] := by
  intro j z hz
  by_cases hij : i = j
  · subst hij
    cases hy.symm.trans hz
    obtain ⟨hlt, -⟩ := List.getElem?_eq_some_iff.1 hy
    refine ⟨s, fs, List.getElem?_set_self hlt, ?_, by simp⟩
    rw [callsOf_called, if_pos rfl]
    exact takeAll_singleton hr
  · refine ⟨z.state, [], ?_, ?_, by simp [hij]⟩
    · rw [List.getElem?_set_ne hij, hz]
    · rw [callsOf_called, if_neg hij]
      rfl

theorem reported (i : Nat) (m : Mark) : Ran xs xs [.reported i m] := fun _ x hx => ⟨x.state, [], hx, rfl, rfl⟩

end Ran

/-- The marks that each instance is owed, or has taken ahead. -/
abbrev Tally := Nat → List Mark

/-- A delivery to instances, which were `xs` when the log was empty, that has not been refused. -/
structure Balanced (xs : List (Instance σ)) (owed ahead : Tally) (w : Watched σ) : Prop where
  ran : Ran xs w.flow.instances w.log
  made : ∀ i, madeBy i w.log = reportsOf i w.log ++ owed i
  offers : ∀ u l, (lowersOf xs)[u]? = some (some l) → offersTo u w.log = reportsOf l w.log ++ ahead u
  answers : ∀ u l, (lowersOf xs)[u]? = some (some l) → (answersOf u w.log).length = (offersTo u w.log).length
  clean : Clean w.log

/-- A delivery that may have been refused. -/
structure Steady (xs : List (Instance σ)) (owed ahead : Tally) (w : Watched σ) : Prop where
  lowers : lowersOf w.flow.instances = lowersOf xs
  lawful : Lawful (lowersOf xs) w.log
  reported : w.flow.reported.toList = reportsIn w.log
  going : w.flow.refusal = none → Balanced xs owed ahead w
  stopped : ∀ e, w.flow.refusal = some e → Stopped (lowersOf xs) w.log e

namespace Watched
variable {w : Watched σ} {i : Nat} {call : Handout} {x : Instance σ} {s : σ} {e : EngineError}

theorem move_refused (h : w.flow.refusal = some e) : w.move i call = (w, []) := by
  simp [move, Flow.move, h]

theorem move_ok {fs : List Finding} (h : w.flow.refusal = none) (hx : w.flow.instances[i]? = some x)
    (hr : call.reply x.state = ⟨s, .ok fs⟩) :
    w.move i call =
      (⟨{ w.flow with instances := w.flow.instances.set i { x with state := s } },
        w.log ++ [.called i call (.ok (fs.map (Finding.sign x.decoder)))]⟩, fs.map (Finding.sign x.decoder)) := by
  simp [move, Flow.move, h, hx, hr, Sink.putAll, Sink.empty]

theorem move_error (h : w.flow.refusal = none) (hx : w.flow.instances[i]? = some x)
    (hr : call.reply x.state = ⟨s, .error e⟩) :
    w.move i call =
      (⟨{ w.flow with instances := w.flow.instances.set i { x with state := s }, refusal := some e },
        w.log ++ [.called i call (.error e)]⟩, []) := by
  simp [move, Flow.move, h, hx, hr]

omit [Protocol σ] in
theorem report_refused {m : Mark} (h : w.flow.refusal = some e) : w.report i m = w := by
  rw [report, h]

omit [Protocol σ] in
theorem report_ok {m : Mark} (h : w.flow.refusal = none) :
    w.report i m = ⟨{ w.flow with reported := w.flow.reported.push m }, w.log ++ [.reported i m]⟩ := by
  simp [report, Flow.report, h]

end Watched

section Moves
variable {xs : List (Instance σ)} {owed ahead : Tally} {w : Watched σ} {i : Nat} {call : Handout}

omit [Protocol σ] in
theorem exists_of_allowed {r : Except EngineError (List Mark)}
    (ha : Allowed (lowersOf xs) w.log (.called i call r)) : ∃ x, xs[i]? = some x := by
  have hlower : ∃ o, (lowersOf xs)[i]? = some o := by
    cases call with
    | samples => exact ⟨none, ha⟩
    | mark =>
      obtain ⟨l, hl, -⟩ := ha
      exact ⟨some l, hl⟩
  obtain ⟨o, ho⟩ := hlower
  obtain ⟨x, hx, -⟩ := exists_instance ho
  exact ⟨x, hx⟩

/-- An accepted call: the instance is owed what it made, and has taken what it was given. -/
theorem Balanced.accepted (h : Balanced xs owed ahead w) {y : Instance σ} {s : σ} {fs : List Finding}
    (hy : w.flow.instances[i]? = some y) (hr : call.reply y.state = ⟨s, .ok fs⟩)
    (hmark : ∀ l, (lowersOf xs)[i]? = some (some l) → call.marks.length = 1)
    (howed : owed i = []) (hahead : ahead i = []) :
    Balanced xs (Function.update owed i (fs.map (Finding.sign y.decoder)))
      (Function.update ahead i call.marks)
      ⟨{ w.flow with instances := w.flow.instances.set i { y with state := s } },
        w.log ++ [.called i call (.ok (fs.map (Finding.sign y.decoder)))]⟩ where
  ran := h.ran.append (.called hy hr)
  made j := by
    have hmade := h.made j
    by_cases hij : i = j
    · subst hij
      rw [howed, List.append_nil] at hmade
      simp [hmade]
    · simp [hij, Function.update_of_ne (Ne.symm hij), hmade]
  offers u l hu := by
    have hoffers := h.offers u l hu
    by_cases hiu : i = u
    · subst hiu
      rw [hahead, List.append_nil] at hoffers
      simp [hoffers]
    · simp [hiu, Function.update_of_ne (Ne.symm hiu), hoffers]
  answers u l hu := by
    have hanswers := h.answers u l hu
    by_cases hiu : i = u
    · subst hiu
      simp [hanswers, hmark l hu]
    · simp [hiu, hanswers]
  clean := by
    refine h.clean.append fun j call' e hmem => ?_
    cases List.mem_singleton.1 hmem

/-- A report: the mark was taken above, and its instance was owed it. -/
theorem Balanced.reported (h : Balanced xs owed ahead w) {l : Nat} {m : Mark} {rest : List Mark}
    (howed : owed l = m :: rest)
    (hahead : ∀ u, ahead u = if (lowersOf xs)[u]? = some (some l) then [m] else []) :
    Balanced xs (Function.update owed l rest) (fun _ => [])
      ⟨{ w.flow with reported := w.flow.reported.push m }, w.log ++ [.reported l m]⟩ where
  ran := h.ran.append (.reported l m)
  made i := by
    have hmade := h.made i
    by_cases hi : l = i
    · subst hi
      rw [howed] at hmade
      simp [hmade]
    · simp [hi, Function.update_of_ne (Ne.symm hi), hmade]
  offers u ll hu := by
    have hoffers := h.offers u ll hu
    rw [hahead] at hoffers
    by_cases hll : l = ll
    · subst hll
      rw [if_pos hu] at hoffers
      simp [hoffers]
    · have hne : (lowersOf xs)[u]? ≠ some (some l) := fun hcon => by
        rw [hu] at hcon
        exact hll (Option.some.inj (Option.some.inj hcon)).symm
      rw [if_neg hne] at hoffers
      simp [hll, hoffers]
  answers u ll hu := by simpa using h.answers u ll hu
  clean := by
    refine h.clean.append fun j call e hmem => ?_
    cases List.mem_singleton.1 hmem

/-- Nothing is owed any more when the delivery has been refused. -/
theorem Steady.of_refused (h : Steady xs owed ahead w) {e : EngineError} (hw : w.flow.refusal = some e)
    {owed' ahead' : Tally} : Steady xs owed' ahead' w :=
  ⟨h.lowers, h.lawful, h.reported, fun hnone => (nomatch hw.symm.trans hnone), h.stopped⟩

theorem Steady.move (h : Steady xs owed ahead w)
    (ha : w.flow.refusal = none → ∀ r, Allowed (lowersOf xs) w.log (.called i call r))
    (howed : owed i = []) (hahead : ahead i = []) (hsamples : call.marks = [] → ∀ u, ahead u = []) :
    Steady xs (Function.update owed i (w.move i call).2) (Function.update ahead i call.marks)
      (w.move i call).1 := by
  cases hw : w.flow.refusal with
  | some e =>
    rw [Watched.move_refused hw]
    exact h.of_refused hw
  | none =>
    have hb := h.going hw
    have ha := ha hw
    obtain ⟨x, hx⟩ := exists_of_allowed (ha (.ok []))
    obtain ⟨t, gs, hy, -, -⟩ := hb.ran i x hx
    rcases hr : call.reply t with ⟨s, result⟩
    have hlowers := (lowersOf_set hy s).trans h.lowers
    cases result with
    | ok fs =>
      rw [Watched.move_ok hw hy hr]
      refine ⟨hlowers, h.lawful.snoc (ha _), ?_, fun _ => ?_, fun e he => ?_⟩
      · simp [h.reported]
      · refine hb.accepted hy hr (fun l hl => ?_) howed hahead
        cases call with
        | mark => rfl
        | samples =>
          have hroot : (lowersOf xs)[i]? = some none := ha (.ok [])
          rw [hl] at hroot
          cases hroot
      · cases hw.symm.trans he
    | error e =>
      rw [Watched.move_error hw hy hr]
      refine ⟨hlowers, h.lawful.snoc (ha _), ?_, fun hnone => ?_, fun e' he => ?_⟩
      · simp [h.reported]
      · cases hnone
      · cases he
        refine ⟨w.log, i, call, rfl, hb.clean, fun hcall u l hu => ?_⟩
        have hoffers := hb.offers u l hu
        rw [hsamples hcall u, List.append_nil] at hoffers
        simp [hcall, hoffers]

theorem Steady.report (h : Steady xs owed ahead w) {l d : Nat} {m : Mark} {rest : List Mark}
    (hl : Level (lowersOf xs) l d) (howed : owed l = m :: rest)
    (hahead : ∀ u, ahead u = if (lowersOf xs)[u]? = some (some l) then [m] else []) :
    Steady xs (Function.update owed l rest) (fun _ => []) (w.report l m) := by
  cases hw : w.flow.refusal with
  | some e =>
    rw [Watched.report_refused hw]
    exact h.of_refused hw
  | none =>
    have hb := h.going hw
    have hmade : madeBy l w.log = reportsOf l w.log ++ m :: rest := howed ▸ hb.made l
    rw [Watched.report_ok hw]
    refine ⟨h.lowers, h.lawful.snoc fun ll hll => ?_, ?_, fun _ => hb.reported howed hahead,
      fun e he => nomatch hw.symm.trans he⟩
    · -- all marks of the lower one that are reported have been answered
      have hself : (lowersOf xs)[l]? ≠ some (some l) := fun hcon => hl.ne_lower hcon rfl
      have hoffers := hb.offers l ll hll
      rw [hahead, if_neg hself, List.append_nil] at hoffers
      have hanswers := hb.answers l ll hll
      rw [hoffers] at hanswers
      rw [← hanswers, List.take_length]
      change reportsOf l w.log ++ [m] <+: madeBy l w.log
      rw [hmade]
      exact ⟨rest, by simp⟩
    · simp [h.reported]

end Moves

end LogicDecode
