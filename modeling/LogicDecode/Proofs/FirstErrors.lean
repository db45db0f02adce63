import LogicDecode.Proofs.Filing
import LogicDecode.Proofs.Taping
import LogicDecode.Trial.Decoders

/-!
# The first refusal ends a run

When its engine refuses a call, a run makes no other one but to close the session, and fails with that error;
its results stay as they are, with all the marks that were reported until then (`Stack.first_error_of_run`).

`Tallies` says what the tape of the engine and the results have to do with each other in each phase of a worker:
before the refusal the calls are all `Granted`, and the results are those of the calls (`Account`). A worker that
enters makes them tally (`ledger_enter`), and each of its other moves keeps them so (`ledger_works`).
-/

namespace LogicDecode
open Engine

/-- No call is refused. -/
def Granted (calls : List Exchange) : Prop := ∀ x ∈ calls, x.error? = none

/-- No call hands samples over. -/
def Quiet (calls : List Exchange) : Prop := reportedIn calls = [] ∧ acceptedIn calls = []

/-- No call is refused but the last one, with this error. -/
inductive Halts : List Exchange → Option RunError → Prop
  | granted {calls : List Exchange} (h : Granted calls) : Halts calls none
  | refused {pre : List Exchange} {x : Exchange} {e : RunError} (h : Granted pre) (hx : x.error? = some e) :
      Halts (pre ++ [x]) (some e)

/-- After that the session may have been closed. -/
inductive Closes : List Exchange → Option RunError → Prop
  | halts {calls : List Exchange} {e : Option RunError} (h : Halts calls e) : Closes calls e
  | closed {calls : List Exchange} {e : Option RunError} (h : Halts calls e) : Closes (calls ++ [.closeSession]) e

/-- What results are after these calls, but for the error. -/
structure Account (table : RowTable) (period : Nat) (calls : List Exchange) (o : Output) : Prop where
  fileable : table.Fileable (reportedIn calls)
  holds : HoldsMarks table period (reportedIn calls) o
  decoded : o.decoded = (acceptedIn calls).getLastD 0

/-- No call has been refused so far. -/
structure Smooth (table : RowTable) (period : Nat) (calls : List Exchange) (o : Output) : Prop extends
    Account table period calls o where
  granted : Granted calls
  unlatched : o.error = none

/-- The calls that have been made when a worker is in a phase, and the results. -/
inductive Tallies (table : RowTable) (period : Nat) : Phase → List Exchange → Output → Prop
  | queued {o : Output} (h : Smooth table period [] o) : Tallies table period .queued [] o
  | feeding {fed count : Nat} {calls : List Exchange} {o : Output} (h : Smooth table period calls o) :
      Tallies table period (.feeding fed count) calls o
  | waiting {fed : Nat} {calls : List Exchange} {o : Output} (h : Smooth table period calls o) :
      Tallies table period (.waiting fed) calls o
  /-- The results are those of the calls before the one that the worker waits in. -/
  | held {count : Nat} {pre : List Exchange} {x : Sending} {o : Output} (h : Smooth table period pre o) :
      Tallies table period (.held x.stop count x.answer) (pre ++ [.send x]) o
  | closing {e : Option RunError} {calls : List Exchange} {o : Output} (hhalts : Halts calls e)
      (h : Account table period calls o) (hnone : o.error = none) : Tallies table period (.closing e) calls o
  | ended {e : Option RunError} {calls : List Exchange} {o : Output} (hcloses : Closes calls e)
      (h : Account table period calls o) (herror : o.error = e) : Tallies table period .ended calls o
  | faulted {calls : List Exchange} {o : Output} (h : Smooth table period calls o) :
      Tallies table period .faulted calls o
  /-- A mark could not be filed, so it does not matter whether the call was refused. -/
  | misfiled {e : Option RunError} {calls : List Exchange} {o : Output} (hcloses : Closes calls e)
      (hmisfit : ¬ table.Fileable (reportedIn calls)) (hnone : o.error = none) : Tallies table period .faulted calls o

section Records
variable {calls more pre post : List Exchange} {x : Exchange} {e : Option RunError}

theorem granted_nil : Granted [] := nofun

theorem granted_append : Granted (calls ++ more) ↔ Granted calls ∧ Granted more := List.forall_mem_append

theorem granted_singleton : Granted [x] ↔ x.error? = none := List.forall_mem_singleton

theorem Quiet.append (h : Quiet calls) (hmore : Quiet more) : Quiet (calls ++ more) := by
  constructor
  · rw [reportedIn_append, h.1, hmore.1, List.append_nil]
  · rw [acceptedIn_append, h.2, hmore.2, List.append_nil]

theorem Granted.findSome? (h : Granted calls) : calls.findSome? Exchange.error? = none := List.findSome?_eq_none_iff.2 h

theorem Granted.halts (h : Granted calls) (hmore : Halts more e) : Halts (calls ++ more) e := by
  cases hmore with
  | granted hgranted => exact .granted (granted_append.2 ⟨h, hgranted⟩)
  | refused hpre hx =>
    rw [← List.append_assoc]
    exact .refused (granted_append.2 ⟨h, hpre⟩) hx

theorem Granted.snoc (h : Granted calls) (x : Exchange) : Halts (calls ++ [x]) x.error? := by
  cases hx : x.error? with
  | none => exact .granted (granted_append.2 ⟨h, granted_singleton.2 hx⟩)
  | some e => exact .refused h hx

theorem Halts.granted_of_none (h : Halts calls none) : Granted calls := by
  cases h with
  | granted hgranted => exact hgranted

theorem Halts.findSome? (h : Halts calls e) : calls.findSome? Exchange.error? = e := by
  cases h with
  | granted hgranted => exact hgranted.findSome?
  | refused hpre hx => rw [List.findSome?_append, hpre.findSome?, Option.none_or, List.findSome?_singleton, hx]

/-- If a call is refused at all, it is the last one. -/
theorem Halts.eq_nil (h : Halts (pre ++ x :: post) e) (hx : x.error?.isSome = true) : post = [] := by
  have hnot : ∀ {calls}, Granted calls → x ∉ calls := fun hgranted hmem => by
    rw [hgranted x hmem] at hx
    cases hx
  generalize hcalls : pre ++ x :: post = calls at h
  cases h with
  | granted hgranted => exact absurd (hcalls ▸ by simp) (hnot hgranted)
  | @refused init y _ hinit =>
    rcases List.eq_nil_or_concat post with hnil | ⟨post, z, rfl⟩
    · exact hnil
    · rw [List.concat_eq_append, ← List.cons_append, ← List.append_assoc] at hcalls
      exact absurd ((List.append_inj' hcalls rfl).1 ▸ by simp) (hnot hinit)

theorem Closes.findSome? (h : Closes calls e) : calls.findSome? Exchange.error? = e := by
  cases h with
  | halts h => exact h.findSome?
  | closed h =>
    rw [List.findSome?_append, h.findSome?]
    exact Option.or_none

theorem Closes.eq_nil_or (h : Closes (pre ++ x :: post) e) (hx : x.error?.isSome = true) :
    post = [] ∨ post = [.closeSession] := by
  generalize hcalls : pre ++ x :: post = calls at h
  cases h with
  | halts h => exact .inl ((hcalls ▸ h).eq_nil hx)
  | @closed calls _ h =>
    rcases List.eq_nil_or_concat post with hnil | ⟨post, z, rfl⟩
    · exact .inl hnil
    rw [List.concat_eq_append, ← List.cons_append, ← List.append_assoc] at hcalls
    obtain ⟨rfl, hz⟩ := List.append_inj' hcalls rfl
    obtain rfl := h.eq_nil hx
    exact .inr (by simpa using hz)

end Records

section Accounts
variable {table : RowTable} {period : Nat} {calls more : List Exchange} {o : Output}

namespace Account

/-- Calls that hand nothing over do not count. -/
theorem idle (h : Account table period calls o) (hquiet : Quiet more) : Account table period (calls ++ more) o := by
  obtain ⟨hfileable, hholds, hdecoded⟩ := h
  refine ⟨?_, ?_, ?_⟩
  · rwa [reportedIn_append, hquiet.1, List.append_nil]
  · rwa [reportedIn_append, hquiet.1, List.append_nil]
  · rw [hdecoded, acceptedIn_append, hquiet.2, List.append_nil]

theorem fail (h : Account table period calls o) (e : Option RunError) :
    Account table period calls { o with error := e } :=
  ⟨h.fileable, h.holds.congr rfl rfl rfl rfl rfl, h.decoded⟩

end Account

theorem Smooth.idle (h : Smooth table period calls o) (hquiet : Quiet more) (hgranted : Granted more) :
    Smooth table period (calls ++ more) o :=
  ⟨h.toAccount.idle hquiet, granted_append.2 ⟨h.granted, hgranted⟩, h.unlatched⟩

section Sent
variable (h : Smooth table period calls o) (ht : table.Enters) {x : Sending} {o' : Output} {b b' : Broadcast}
  {log log' : List LogEntry}
include h ht

/-- The marks of an answer are filed behind the others if no fault comes up. -/
theorem Smooth.file (hs : Stack.storeAll x.answer.reported o b log = (o', b', log', none)) :
    table.Fileable (reportedIn (calls ++ [.send x])) ∧ HoldsMarks table period (reportedIn (calls ++ [.send x])) o' ∧
      o'.decoded = (acceptedIn calls).getLastD 0 ∧ o'.error = none := by
  obtain ⟨hdecoded, herror, -⟩ := storeAll_keeps x.answer.reported o b log
  have hfileable : table.Fileable (reportedIn calls ++ x.answer.reported) :=
    (h.holds.fileable_iff h.fileable ht b log).2 (by rw [hs])
  obtain ⟨o₁, new, hstore, -, hholds⟩ :=
    h.holds.storeAll ht (fun m hm => hfileable.known m (List.mem_append_right _ hm)) hfileable.order b log
  rw [hs] at hdecoded herror hstore
  obtain ⟨rfl, -⟩ := Prod.mk.inj hstore
  rw [reportedIn_append, reportedIn_send]
  exact ⟨hfileable, hholds, hdecoded.trans h.decoded, herror.trans h.unlatched⟩

theorem Smooth.decline {f : Failure EngineError} (hf : x.answer.outcome = .error f)
    (hs : Stack.storeAll x.answer.reported o b log = (o', b', log', none)) :
    Account table period (calls ++ [.send x]) o' ∧ o'.error = none := by
  obtain ⟨hfileable, hholds, hdecoded, hnone⟩ := h.file ht hs
  refine ⟨⟨hfileable, hholds, ?_⟩, hnone⟩
  rw [hdecoded, acceptedIn_append, acceptedIn_error hf, List.append_nil]

theorem Smooth.accept (hok : x.answer.outcome = .ok ())
    (hs : Stack.storeAll x.answer.reported o b log = (o', b', log', none)) :
    Smooth table period (calls ++ [.send x]) { o' with decoded := x.stop } := by
  obtain ⟨hfileable, hholds, -, hnone⟩ := h.file ht hs
  refine ⟨⟨hfileable, hholds.congr rfl rfl rfl rfl rfl, ?_⟩,
    granted_append.2 ⟨h.granted, granted_singleton.2 ?_⟩, hnone⟩
  · rw [acceptedIn_append, acceptedIn_ok hok, List.getLastD_concat]
  · simp only [Exchange.error?, hok]

theorem Smooth.misfit {f : Fault} (hs : Stack.storeAll x.answer.reported o b log = (o', b', log', some f)) :
    ¬ table.Fileable (reportedIn (calls ++ [.send x])) ∧ o'.error = none := by
  obtain ⟨-, herror, -⟩ := storeAll_keeps x.answer.reported o b log
  have hiff : table.Fileable (reportedIn calls ++ x.answer.reported) ↔ _ := h.holds.fileable_iff h.fileable ht b log
  rw [hs] at herror hiff
  rw [reportedIn_append, reportedIn_send]
  exact ⟨fun hfileable => (nomatch hiff.1 hfileable), herror.trans h.unlatched⟩

end Sent

namespace Tallies
variable {p : Phase} (h : Tallies table period p calls o)
include h

theorem closes : ∃ e, Closes calls e := by
  cases h with
  | queued h | feeding h | waiting h | faulted h => exact ⟨_, .halts (.granted h.granted)⟩
  | held h => exact ⟨_, .halts (h.granted.snoc _)⟩
  | closing hhalts => exact ⟨_, .halts hhalts⟩
  | ended hcloses => exact ⟨_, hcloses⟩
  | misfiled hcloses => exact ⟨_, hcloses⟩

section Free
variable (hheld : ∀ stop count sub, p ≠ .held stop count sub)
include hheld

theorem misfit (hmisfit : ¬ table.Fileable (reportedIn calls)) : p = .faulted ∧ o.error = none := by
  cases h with
  | queued h | feeding h | waiting h | faulted h => exact absurd h.fileable hmisfit
  | held => exact absurd rfl (hheld _ _ _)
  | closing _ h | ended _ h => exact absurd h.fileable hmisfit
  | misfiled _ _ hnone => exact ⟨rfl, hnone⟩

theorem account (hfileable : table.Fileable (reportedIn calls)) : Account table period calls o := by
  cases h with
  | queued h | feeding h | waiting h | faulted h => exact h.toAccount
  | held => exact absurd rfl (hheld _ _ _)
  | closing _ h | ended _ h => exact h
  | misfiled _ hmisfit => exact absurd hfileable hmisfit

/-- A worker that goes on has met no refusal, or is about to close with it. -/
theorem pending (hover : p.isOver = false) :
    o.error = none ∧ ∀ e, calls.findSome? Exchange.error? = some e → p = .closing (some e) := by
  cases h with
  | queued h | feeding h | waiting h =>
    exact ⟨h.unlatched, fun e he => (by rw [h.granted.findSome?] at he; cases he)⟩
  | held => exact absurd rfl (hheld _ _ _)
  | closing hhalts _ hnone =>
    exact ⟨hnone, fun e he => congrArg _ (hhalts.findSome?.symm.trans he)⟩
  | ended | faulted | misfiled => cases hover

end Free

theorem latched (hover : p.isOver = true) (hfileable : table.Fileable (reportedIn calls)) :
    o.error = calls.findSome? Exchange.error? := by
  cases h with
  | queued | feeding | waiting | held | closing => cases hover
  | ended hcloses _ herror => rw [herror, hcloses.findSome?]
  | faulted h => rw [h.unlatched, h.granted.findSome?]
  | misfiled _ hmisfit => exact absurd hfileable hmisfit

end Tallies

end Accounts

namespace Stack
variable {ε : Type} [Engine ε] {table : RowTable} {period : Nat} {u u' : Stack (Taped ε)} {w : Worker} {seg : Segment}

theorem exists_calls_of_build (stages : List Stage) (e : Taped ε) (lower : Option Nat) :
    ∃ more, (build e lower stages).1.calls = e.calls ++ more ∧ Quiet more ∧
      Halts more (match (build e lower stages).2 with
        | .error (.refused c) => some c
        | _ => none) := by
  induction stages generalizing e lower with
  | nil => exact ⟨[], (List.append_nil _).symm, ⟨rfl, rfl⟩, .granted granted_nil⟩
  | cons stage rest ih =>
    unfold build
    have hcreate : (Engine.create e stage.setup).1.calls =
        e.calls ++ [.create stage.setup (Engine.create e stage.setup).2] := rfl
    rcases hc : Engine.create e stage.setup with ⟨e₁, (c | f) | n⟩ <;> rw [hc] at hcreate
    · exact ⟨_, hcreate, ⟨rfl, rfl⟩, .refused granted_nil rfl⟩
    · exact ⟨_, hcreate, ⟨rfl, rfl⟩, .granted (granted_singleton.2 rfl)⟩
    have hgranted : Granted [.create stage.setup (.ok n)] := granted_singleton.2 rfl
    cases lower with
    | none =>
      obtain ⟨more, hmore, hquiet, hhalts⟩ := ih e₁ (some n)
      rw [hcreate, List.append_assoc] at hmore
      exact ⟨_, hmore, .append ⟨rfl, rfl⟩ hquiet, hgranted.halts hhalts⟩
    | some l =>
      dsimp only
      have hstack : (Engine.stack e₁ l n).1.calls = e₁.calls ++ [.stack l n (Engine.stack e₁ l n).2] := rfl
      rcases hs : Engine.stack e₁ l n with ⟨e₂, c | ⟨⟩⟩ <;> rw [hs, hcreate, List.append_assoc] at hstack
      · exact ⟨_, hstack, ⟨rfl, rfl⟩, .refused hgranted rfl⟩
      obtain ⟨more, hmore, hquiet, hhalts⟩ := ih e₂ (some n)
      rw [hstack, List.append_assoc] at hmore
      exact ⟨_, hmore, .append ⟨rfl, rfl⟩ hquiet, (granted_append.2 ⟨hgranted, granted_singleton.2 rfl⟩).halts hhalts⟩

theorem exists_calls_of_start (e : Taped ε) (hz : Nat) :
    ∃ more, (Engine.start (Engine.attach (Engine.setRate e hz))).1.calls = e.calls ++ more ∧ Quiet more ∧
      Halts more (match (Engine.start (Engine.attach (Engine.setRate e hz))).2 with
        | .error c => some (.session c)
        | .ok () => none) := by
  have hset : Granted [.setRate hz, .attach] := granted_append.2 ⟨granted_singleton.2 rfl, granted_singleton.2 rfl⟩
  have hstart : (Engine.start (Engine.attach (Engine.setRate e hz))).1.calls = e.calls ++ [.setRate hz] ++ [.attach] ++
      [.start (Engine.start (Engine.attach (Engine.setRate e hz))).2] := rfl
  rw [List.append_assoc, List.append_assoc] at hstart
  refine ⟨_, hstart, ⟨rfl, rfl⟩, ?_⟩
  cases (Engine.start (Engine.attach (Engine.setRate e hz))).2 with
  | error c => exact .refused hset rfl
  | ok => exact hset.halts (.granted (granted_singleton.2 rfl))

/-- Where a worker stands after a move, and what the tape and the results show. -/
def Ledger (table : RowTable) (period : Nat) (w : Worker) (u : Stack (Taped ε)) : Prop :=
  ∃ p, u.worker = some { w with phase := p } ∧ Tallies table period p u.engine.calls u.output

omit [Engine ε] in
theorem ledger_conclude {e : Option RunError} (hcloses : Closes u.engine.calls e)
    (h : Account table period u.engine.calls u.output) (hnone : u.output.error = none) :
    Ledger table period w (u.conclude w e).1 := by
  obtain ⟨b, hb⟩ := conclude_eq u w e
  rw [hb]
  exact ⟨.ended, rfl, .ended hcloses (h.fail _) (by rw [hnone, Option.none_or])⟩

theorem ledger_giveUp {e : RunError} (hhalts : Halts u.engine.calls (some e))
    (h : Account table period u.engine.calls u.output) (hnone : u.output.error = none) :
    Ledger table period w (u.giveUp w e).1 :=
  ledger_conclude (.closed hhalts) (h.idle ⟨rfl, rfl⟩) hnone

theorem ledger_crash (h : Smooth table period u.engine.calls u.output) : Ledger table period w (u.crash w) :=
  ⟨.faulted, rfl, .faulted (h.idle ⟨rfl, rfl⟩ (granted_singleton.2 rfl))⟩

/-- A worker that enters opens a session and starts it with its instances, or fails with what was refused. -/
theorem ledger_enter (hcalls : u.engine.calls = []) (h : Smooth table period [] u.output) :
    Ledger table period w (u.enter w seg).1 := by
  have hquiet : ∀ {calls}, Quiet calls → Account table period calls u.output := h.toAccount.idle
  have hgranted : Granted [.openSession (.ok ())] := granted_singleton.2 rfl
  have hopen : (Engine.openSession u.engine).1.calls =
      u.engine.calls ++ [.openSession (Engine.openSession u.engine).2] := rfl
  unfold enter
  rcases ho : Engine.openSession u.engine with ⟨e₁, c | ⟨⟩⟩ <;> rw [ho, hcalls] at hopen
  · refine ledger_conclude (.halts ?_) ?_ h.unlatched <;> dsimp only <;> rw [hopen]
    · exact .refused granted_nil rfl
    · exact hquiet ⟨rfl, rfl⟩
  dsimp only
  obtain ⟨more, hbuild, hmore, hhalts⟩ := exists_calls_of_build w.stages e₁ none
  rw [hopen] at hbuild
  replace hmore : Quiet ([.openSession (.ok ())] ++ more) := .append ⟨rfl, rfl⟩ hmore
  replace hhalts := hgranted.halts hhalts
  rcases hb : build e₁ none w.stages with ⟨e₂, (c | f) | ⟨⟩⟩ <;> rw [hb] at hbuild hhalts
  · refine ledger_giveUp ?_ ?_ h.unlatched <;> dsimp only <;> rw [hbuild]
    · exact hhalts
    · exact hquiet hmore
  · refine ledger_crash ?_
    dsimp only
    rw [hbuild]
    exact ⟨hquiet hmore, hhalts.granted_of_none, h.unlatched⟩
  dsimp only
  obtain ⟨last, hstart, hlast, hends⟩ := exists_calls_of_start e₂ w.rate.toUInt64.toNat
  rw [hbuild] at hstart
  replace hlast := hmore.append hlast
  replace hends := hhalts.granted_of_none.halts hends
  rcases hs : Engine.start (Engine.attach (Engine.setRate e₂ w.rate.toUInt64.toNat)) with ⟨e₃, c | ⟨⟩⟩ <;>
    rw [hs] at hstart hends
  · refine ledger_giveUp ?_ ?_ h.unlatched <;> dsimp only <;> rw [hstart]
    · exact hends
    · exact hquiet hlast
  · refine ⟨_, rfl, .feeding ?_⟩
    dsimp only [setPhase]
    rw [hstart]
    exact ⟨hquiet hlast, hends.granted_of_none, h.unlatched⟩

theorem ledger_absorbs {pre : List Exchange} {x : Sending} {count : Nat} (ht : table.Enters)
    (hcalls : u.engine.calls = pre ++ [.send x]) (h : Smooth table period pre u.output)
    (ha : Absorbs u w x.stop count x.answer u') : Ledger table period w u' := by
  cases ha with
  | misfiled hs =>
    obtain ⟨hmisfit, hnone⟩ := h.misfit ht hs
    refine ⟨.faulted, rfl, ?_⟩
    show Tallies table period .faulted (u.engine.calls ++ [.closeSession]) _
    rw [hcalls]
    refine .misfiled (.closed (h.granted.snoc _)) ?_ hnone
    rwa [reportedIn_append, reportedIn_closeSession, List.append_nil]
  | broken hs hf =>
    obtain ⟨haccount, hnone⟩ := h.decline ht hf hs
    refine ledger_crash ?_
    dsimp only
    rw [hcalls]
    refine ⟨haccount, granted_append.2 ⟨h.granted, granted_singleton.2 ?_⟩, hnone⟩
    simp only [Exchange.error?, hf]
  | refused hs hc =>
    obtain ⟨haccount, hnone⟩ := h.decline ht hc hs
    refine ⟨_, rfl, ?_⟩
    show Tallies table period _ u.engine.calls _
    rw [hcalls]
    refine .closing (.refused h.granted ?_) haccount hnone
    simp only [Exchange.error?, hc]
  | taken hs hok =>
    refine ⟨_, rfl, .feeding ?_⟩
    show Smooth table period u.engine.calls _
    rw [hcalls]
    exact h.accept ht hok hs

theorem ledger_works (ht : table.Enters) (hp : w.phase ≠ .queued)
    (h : Tallies table period w.phase u.engine.calls u.output) (hworks : Works seg u w u') :
    Ledger table period w u' := by
  cases hworks with
  | turnedAway hq | unbuilt hq | opened hq => exact absurd hq hp
  | stopped hf =>
    rw [hf] at h
    cases h with
    | feeding h => exact ⟨_, rfl, .closing (.granted h.granted) h.toAccount h.unlatched⟩
  | caughtUp hf =>
    rw [hf] at h
    cases h with
    | feeding h => exact ⟨_, rfl, .waiting h⟩
  | overflow hf =>
    rw [hf] at h
    cases h with
    | feeding h => exact ledger_crash h
  | @held fed count stop _ sub hf _ _ _ hs =>
    rw [hf] at h
    have hsend := Taped.calls_send u.engine fed stop (seg.samples fed stop) seg.unitSize
    rw [hs] at hsend
    cases h with
    | feeding h =>
      refine ⟨_, rfl, ?_⟩
      show Tallies table period (.held stop count sub) _ u.output
      dsimp only [setPhase]
      rw [hsend]
      exact .held (x := ⟨fed, stop, seg.samples fed stop, seg.unitSize, sub⟩) h
  | @sent fed count stop e sub _ hf _ _ _ hs ha =>
    rw [hf] at h
    have hsend := Taped.calls_send u.engine fed stop (seg.samples fed stop) seg.unitSize
    rw [hs] at hsend
    cases h with
    | feeding h =>
      exact ledger_absorbs (u := { u with engine := e })
        (x := ⟨fed, stop, seg.samples fed stop, seg.unitSize, sub⟩) ht hsend h ha
  | released hh ha =>
    rw [hh] at h
    generalize hcalls : u.engine.calls = calls at h
    cases h with
    | held h => exact ledger_absorbs ht hcalls h ha
  | roused hwait =>
    rw [hwait] at h
    cases h with
    | waiting h => exact ⟨_, rfl, .feeding h⟩
  | done hwait =>
    rw [hwait] at h
    cases h with
    | waiting h => exact ⟨_, rfl, .closing (.granted h.granted) h.toAccount h.unlatched⟩
  | closed hclosing =>
    rw [hclosing] at h
    cases h with
    | closing hhalts h hnone => exact ledger_conclude (.closed hhalts) (h.idle ⟨rfl, rfl⟩) hnone

/-- The tape and the results tally with the phase of the worker, or with the one that it was forgotten in. -/
def Tallied (table : RowTable) (period : Nat) (u : Stack (Taped ε)) : Prop :=
  ∃ p, Tallies table period p u.engine.calls u.output ∧
    ((∃ w, u.worker = some w ∧ w.phase = p) ∨ u.worker = none ∧ p.isOver = true)

omit [Engine ε] in
theorem Ledger.tallied (h : Ledger table period w u) : Tallied table period u := by
  obtain ⟨p, hw, htallies⟩ := h
  exact ⟨p, htallies, .inl ⟨_, hw, rfl⟩⟩

omit [Engine ε] in
theorem Tallied.tallies (h : Tallied table period u) (hw : u.worker = some w) :
    Tallies table period w.phase u.engine.calls u.output := by
  obtain ⟨p, htallies, ⟨w', hw', rfl⟩ | ⟨hnone, -⟩⟩ := h
  · rw [hw] at hw'
    rwa [Option.some.inj hw']
  · cases hw.symm.trans hnone

theorem Tallied.proceeds {seg' : Segment} (h : Tallied table period u) (ht : table.Enters)
    (hstep : Proceeds (u, seg) (u', seg')) : Tallied table period u' := by
  rcases proceeds_cases hstep with ⟨-, w, hw, hworks, henter⟩ | hapart
  · by_cases hq : w.phase = .queued
    · have htallies := h.tallies hw
      rw [hq] at htallies
      rw [henter hq]
      generalize hcalls : u.engine.calls = calls at htallies
      cases htallies with
      | queued h => exact (ledger_enter hcalls h).tallied
    · exact (ledger_works ht hq (h.tallies hw) hworks).tallied
  · have hengine : u'.engine = u.engine := hapart.engine
    have houtput : u'.output = u.output := hapart.output
    rcases hapart.worker with hsame | ⟨hnone, w, hw, hover⟩
    · have hsame : u'.worker = u.worker := hsame
      unfold Tallied
      rwa [hengine, houtput, hsame]
    · have htallies := h.tallies hw
      rw [← hengine, ← houtput] at htallies
      exact ⟨_, htallies, .inr ⟨hnone, hover⟩⟩

theorem Tallied.course {p q : Stack (Taped ε) × Segment} {ds : List Deed} (h : Tallied table period p.1)
    (ht : table.Enters) (hcourse : Course p ds q) : Tallied table period q.1 := by
  induction hcourse with
  | refl => exact h
  | tail _ hturn ih => exact ih.proceeds ht hturn.proceeds

omit [Engine ε] in
theorem tallied_launch {s : Stack ε} (hcomplete : s.stages.all Stage.isComplete = true) (number : Nat)
    (first : Segment) : Tallied (.ofProfiles (s.stages.map (·.profile))) (max s.config.notifyPeriod 1)
      ((s.launch (some (number, first))).1.taping []) := by
  have hholds := holds_launch hcomplete (some (number, first))
  refine ⟨.queued, .queued ⟨⟨RowTable.fileable_nil _, hholds, ?_⟩, granted_nil, ?_⟩, .inl ?_⟩ <;>
    (unfold launch; dsimp only [Stack.clear]; rw [hcomplete, if_neg (by decide)])
  · rfl
  · rfl
  · exact ⟨_, rfl, rfl⟩

/-- A worker that is about to close with an error latches it. -/
theorem exists_step?_of_closing {t : Stack ε} {e : RunError} (hw : t.worker = some w)
    (hp : w.phase = .closing (some e)) (hnone : t.output.error = none) :
    ∃ t' log, t.step? seg = some (t', log) ∧ t'.isRunning = false ∧ t'.output = { t.output with error := some e } := by
  let u := { t with broadcast := t.broadcast.send .marks, engine := Engine.closeSession t.engine }
  obtain ⟨b, hb⟩ := conclude_eq u w (some e)
  have hstep : t.step? seg = some (u.conclude w (some e)) := by simp only [step?, hw, hp, u]
  refine ⟨(u.conclude w (some e)).1, (u.conclude w (some e)).2, hstep, ?_, ?_⟩
  · unfold isRunning
    rw [worker_conclude]
    rfl
  · rw [hb, show u.output = t.output from rfl, hnone]
    rfl

/-- A run on any engine, at any time, and the calls that it has made of it. After a call that is refused there is
none but the one that closes the session. Unless a mark that has no row, or does not start after those of its row,
has broken the run off within the call that reported it, the first refusal is the error that the run ends with, the
worker that has not ended yet latches it with its next move, the samples count as decoded up to the end of the last
chunk that was taken, and each row holds the marks that go to it of all that were reported, those of the refused
call included. An error that is latched stays, and nobody is told of another one. -/
theorem first_error_of_run {s : Stack ε} (hcomplete : s.stages.all Stage.isComplete = true) {number : Nat}
    {first : Segment} {ds : List Deed} {t : Stack ε}
    (hcourse : Course ((s.launch (some (number, first))).1, first) ds (t, seg)) :
    let table := RowTable.ofProfiles (s.stages.map (·.profile))
    let taped := (s.launch (some (number, first))).1.taping []
    (∃ calls, Course (taped, first) ds (t.taping calls, seg)) ∧
      ∀ calls, Course (taped, first) ds (t.taping calls, seg) →
        (∀ pre x post, calls = pre ++ x :: post → x.error?.isSome = true → post = [] ∨ post = [.closeSession]) ∧
        (t.isHeld = false → ¬ table.Fileable (reportedIn calls) → t.isRunning = false ∧ t.output.error = none) ∧
        (t.isHeld = false → table.Fileable (reportedIn calls) →
          (t.isRunning = false → t.output.error = calls.findSome? Exchange.error?) ∧
          (t.isRunning = true → t.output.error = none ∧ ∀ e, calls.findSome? Exchange.error? = some e →
            ∃ t' log, t.step? seg = some (t', log) ∧ t'.isRunning = false ∧
              t'.output = { t.output with error := some e }) ∧
          t.output.decoded = (acceptedIn calls).getLastD 0 ∧
          (t.output.tracks.map Prod.fst = table.keys ∧ table.keys.Nodup) ∧
          (∀ p ∈ t.output.tracks, p.2.marks.toList = table.shown p.1 (reportedIn calls)) ∧
          (t.output.tracks.map fun p => p.2.marks.toList).flatten.Perm (reportedIn calls)) ∧
        ∀ e e', t.output.error = some e → t.latch e' = (t, []) := by
  intro table taped
  have ht : table.Enters := .ofProfiles _
  refine ⟨exists_taped_course hcourse [], fun calls htaped => ?_⟩
  obtain ⟨p, htallies, hphase⟩ := (tallied_launch hcomplete number first).course ht htaped
  replace htallies : Tallies table (max s.config.notifyPeriod 1) p calls t.output := htallies
  replace hphase : (∃ w, t.worker = some w ∧ w.phase = p) ∨ t.worker = none ∧ p.isOver = true := hphase
  have hrunning : t.isRunning = !p.isOver := by
    rcases hphase with ⟨w, hw, rfl⟩ | ⟨hw, ho⟩
    · simp [isRunning, hw]
    · simp [isRunning, hw, ho]
  have hfree : t.isHeld = false → ∀ stop count sub, p ≠ .held stop count sub := by
    rintro hheld stop count sub rfl
    rcases hphase with ⟨w, hw, hp⟩ | ⟨-, ho⟩
    · simp [isHeld, hw, hp] at hheld
    · cases ho
  refine ⟨?_, fun hheld hmisfit => ?_, fun hheld hfileable => ⟨fun hover => ?_, fun hgoes => ?_, ?_⟩, fun e e' he => ?_⟩
  · rintro pre x post rfl hx
    obtain ⟨e, hcloses⟩ := htallies.closes
    exact hcloses.eq_nil_or hx
  · obtain ⟨rfl, hnone⟩ := htallies.misfit (hfree hheld) hmisfit
    exact ⟨hrunning, hnone⟩
  · rw [hrunning, Bool.not_eq_false'] at hover
    exact htallies.latched hover hfileable
  · rw [hrunning, Bool.not_eq_true'] at hgoes
    obtain ⟨hnone, hpending⟩ := htallies.pending (hfree hheld) hgoes
    refine ⟨hnone, fun e he => ?_⟩
    obtain rfl := hpending e he
    rcases hphase with ⟨w, hw, hp⟩ | ⟨-, ho⟩
    · exact exists_step?_of_closing hw hp hnone
    · cases ho
  · have haccount := htallies.account (hfree hheld) hfileable
    have hkeys : t.output.tracks.map Prod.fst = table.keys := by
      rw [haccount.holds.tracks, List.map_map]
      rfl
    refine ⟨haccount.decoded, ⟨hkeys, ht.distinct⟩, fun p hp => ?_, haccount.holds.perm ht hfileable.known⟩
    rw [haccount.holds.tracks] at hp
    obtain ⟨r, -, rfl⟩ := List.mem_map.1 hp
    rfl
  · unfold latch
    rw [he]

/-- The upper decoder fails on the second mark of the second chunk, when the marks of one more sample have been
reported. -/
theorem first_error_of_run_partway :
    let registry : Registry Trial :=
      .ofList [⟨Trial.highProfile, Trial.createHigh⟩, ⟨Trial.countProfile, Trial.createCount⟩]
    let stages : List Stage := [(Stage.ofProfile Trial.highProfile).connect "data" ⟨"D0", 0, some 0⟩,
      (Stage.ofProfile Trial.countProfile).setOption "fail_at" (.int 4)]
    let s : Stack (Host Trial) := .create stages (.ofRegistry registry) ⟨2, 2⟩ .stopped .shared
    let seg : Segment := ⟨1, 0.0, 0.0, #[1, 1, 1, 1], by decide⟩
    let t := (s.launch (some (0, seg))).1
    s.stages.all Stage.isComplete = true ∧ ∃ ds t' calls, Course (t, seg) ds (t', seg) ∧
      Course (t.taping [], seg) ds (t'.taping calls, seg) ∧ t'.isHeld = false ∧
      (RowTable.ofProfiles (s.stages.map (·.profile))).Fileable (reportedIn calls) ∧
      calls.findSome? Exchange.error? = some (.submission (.failed "count failed at 4")) ∧
      (acceptedIn calls).getLastD 0 = 2 ∧ (reportedIn calls).length = 6 := by
  intro registry stages s seg t
  let w : Worker := ⟨stages, 0, if seg.rate == 0.0 then 1.0 else seg.rate, s.config, .queued⟩
  let r := recorded seg 9 (t.enter w seg).1
  have hworker : t.worker = some w := rfl
  have hcourse : Course (t, seg) (deeds seg t (t.enter w seg).1 ++ r.1) (r.2, seg) :=
    (Course.single (.enter hworker rfl)).trans (course_recorded seg 9 _)
  have hover : r.2.isRunning = false := by decide +kernel
  have hfree : r.2.isHeld = false := by decide +kernel
  have herror : r.2.output.error = some (.submission (.failed "count failed at 4")) := by decide +kernel
  have hdecoded : r.2.output.decoded = 2 := by decide +kernel
  have hmarks : (r.2.output.tracks.map fun p => p.2.marks.toList).flatten.length = 6 := by decide +kernel
  have hcomplete : s.stages.all Stage.isComplete = true := by decide +kernel
  clear_value r
  obtain ⟨⟨calls, htaped⟩, hall⟩ := first_error_of_run hcomplete hcourse
  obtain ⟨-, hmisfit, hfit, -⟩ := hall calls htaped
  have hfileable : (RowTable.ofProfiles (s.stages.map (·.profile))).Fileable (reportedIn calls) := by
    by_contra hnot
    cases herror.symm.trans (hmisfit hfree hnot).2
  obtain ⟨hlatched, -, haccepted, -, -, hperm⟩ := hfit hfree hfileable
  exact ⟨hcomplete, _, r.2, calls, hcourse, htaped, hfree, hfileable, (hlatched hover).symm.trans herror,
    haccepted.symm.trans hdecoded, hperm.length_eq.symm.trans hmarks⟩

end Stack
end LogicDecode
