import LogicDecode.Session

/-!
# What happens during a delivery

A `Watched` flow writes down what happens in it: each call of an instance with what it gave back, and
each report. It moves as the flow does (`Watched.flow_run`), and what is written down has no effect.

What one instance was given, made and had reported is read off such a log (`callsOf`,
`answersOf`, `reportsOf` and what is made of them).
-/

namespace LogicDecode

/-- What an instance can be given. -/
inductive Handout where
  | samples (c : Chunk)
  | mark (m : Mark)

def Handout.reply {σ : Type} [Protocol σ] (s : σ) : Handout → Reply σ
  | samples c => Protocol.decode s c
  | mark m => Protocol.derive s m

/-- The mark that an instance is given, if it is one. -/
def Handout.marks : Handout → List Mark
  | samples _ => []
  | mark m => [m]

def Handout.chunks : Handout → List Chunk
  | samples c => [c]
  | mark _ => []

/-- One thing that happens to an instance. -/
inductive Happening where
  | called (i : Nat) (call : Handout) (result : Except EngineError (List Mark))
  | reported (i : Nat) (m : Mark)

section Logs

/-- What an instance was given. -/
def callsOf (i : Nat) (log : List Happening) : List Handout :=
  log.filterMap fun
    | .called j call _ => if j = i then some call else none
    | .reported .. => none

/-- The marks among what an instance was given. -/
def offersTo (i : Nat) (log : List Happening) : List Mark := (callsOf i log).flatMap Handout.marks

/-- The chunks among what an instance was given. -/
def chunksTo (i : Nat) (log : List Happening) : List Chunk := (callsOf i log).flatMap Handout.chunks

/-- The instances that were given a chunk, in order, and the chunk. -/
def servedOf (log : List Happening) : List (Nat × Chunk) :=
  log.filterMap fun
    | .called i (.samples c) _ => some (i, c)
    | _ => none

/-- What an instance made, call by call. -/
def answersOf (i : Nat) (log : List Happening) : List (List Mark) :=
  log.filterMap fun
    | .called j _ (.ok ms) => if j = i then some ms else none
    | _ => none

/-- The marks that an instance made. -/
def madeBy (i : Nat) (log : List Happening) : List Mark := (answersOf i log).flatten

/-- The marks of an instance that were reported. -/
def reportsOf (i : Nat) (log : List Happening) : List Mark :=
  log.filterMap fun
    | .reported j m => if j = i then some m else none
    | .called .. => none

def reportsIn (log : List Happening) : List Mark :=
  log.filterMap fun
    | .reported _ m => some m
    | .called .. => none

/-- No call was refused. -/
def Clean (log : List Happening) : Prop := ∀ i call e, .called i call (.error e) ∉ log

variable {i j : Nat} {log log' : List Happening} {call : Handout} {m : Mark} {ms : List Mark} {e : EngineError}

@[simp] theorem callsOf_append : callsOf i (log ++ log') = callsOf i log ++ callsOf i log' :=
  List.filterMap_append

@[simp] theorem offersTo_append : offersTo i (log ++ log') = offersTo i log ++ offersTo i log' := by
  simp [offersTo]

@[simp] theorem chunksTo_append : chunksTo i (log ++ log') = chunksTo i log ++ chunksTo i log' := by
  simp [chunksTo]

@[simp] theorem answersOf_append : answersOf i (log ++ log') = answersOf i log ++ answersOf i log' :=
  List.filterMap_append

@[simp] theorem madeBy_append : madeBy i (log ++ log') = madeBy i log ++ madeBy i log' := by
  simp [madeBy]

@[simp] theorem reportsOf_append : reportsOf i (log ++ log') = reportsOf i log ++ reportsOf i log' :=
  List.filterMap_append

@[simp] theorem reportsIn_append : reportsIn (log ++ log') = reportsIn log ++ reportsIn log' :=
  List.filterMap_append

@[simp] theorem servedOf_append : servedOf (log ++ log') = servedOf log ++ servedOf log' := List.filterMap_append

@[simp] theorem servedOf_samples {c : Chunk} {r : Except EngineError (List Mark)} :
    servedOf [.called i (.samples c) r] = [(i, c)] := rfl

@[simp] theorem servedOf_mark {r : Except EngineError (List Mark)} : servedOf [.called i (.mark m) r] = [] := rfl

@[simp] theorem servedOf_reported : servedOf [.reported i m] = [] := rfl

@[simp] theorem callsOf_called {r : Except EngineError (List Mark)} :
    callsOf i [.called j call r] = if j = i then [call] else [] := by
  by_cases h : j = i <;> simp [callsOf, h]

@[simp] theorem callsOf_reported : callsOf i [.reported j m] = [] := rfl

@[simp] theorem offersTo_called {r : Except EngineError (List Mark)} :
    offersTo i [.called j call r] = if j = i then call.marks else [] := by
  by_cases h : j = i <;> simp [offersTo, h]

@[simp] theorem chunksTo_called {r : Except EngineError (List Mark)} :
    chunksTo i [.called j call r] = if j = i then call.chunks else [] := by
  by_cases h : j = i <;> simp [chunksTo, h]

@[simp] theorem offersTo_reported : offersTo i [.reported j m] = [] := rfl

@[simp] theorem chunksTo_reported : chunksTo i [.reported j m] = [] := rfl

@[simp] theorem answersOf_ok : answersOf i [.called j call (.ok ms)] = if j = i then [ms] else [] := by
  by_cases h : j = i <;> simp [answersOf, h]

@[simp] theorem answersOf_reported : answersOf i [.reported j m] = [] := rfl

@[simp] theorem madeBy_ok : madeBy i [.called j call (.ok ms)] = if j = i then ms else [] := by
  rw [madeBy, answersOf_ok]
  split <;> simp

@[simp] theorem madeBy_reported : madeBy i [.reported j m] = [] := rfl

@[simp] theorem reportsOf_called {r : Except EngineError (List Mark)} :
    reportsOf i [.called j call r] = [] := rfl

@[simp] theorem reportsOf_reported : reportsOf i [.reported j m] = if j = i then [m] else [] := by
  by_cases h : j = i <;> simp [reportsOf, h]

@[simp] theorem reportsIn_called {r : Except EngineError (List Mark)} :
    reportsIn [.called j call r] = [] := rfl

@[simp] theorem reportsIn_reported : reportsIn [.reported j m] = [m] := rfl

theorem chunksTo_eq_served : chunksTo i log = (servedOf log).filterMap fun p => if p.1 = i then some p.2 else none := by
  induction log with
  | nil => rfl
  | cons h log ih =>
    rw [← List.singleton_append, chunksTo_append, servedOf_append, List.filterMap_append, ih]
    cases h with
    | reported => rfl
    | called j call r =>
      rw [chunksTo_called]
      cases call with
      | samples c => by_cases hj : j = i <;> simp [hj, Handout.chunks]
      | mark m => by_cases hj : j = i <;> simp [hj, Handout.chunks]

theorem mem_callsOf : call ∈ callsOf i log ↔ ∃ r, .called i call r ∈ log := by
  rw [callsOf, List.mem_filterMap]
  constructor
  · rintro ⟨h, hmem, hcall⟩
    cases h with
    | reported => cases hcall
    | called j call' r =>
      dsimp only at hcall
      by_cases hj : j = i
      · rw [if_pos hj] at hcall
        cases hcall
        exact ⟨r, hj ▸ hmem⟩
      · rw [if_neg hj] at hcall
        cases hcall
  · rintro ⟨r, hmem⟩
    exact ⟨_, hmem, if_pos rfl⟩

/-- Values that are each made of what is read off them are all made of it. -/
theorem map_flatMap_self {α β : Type} {f : α → List β} {g : β → α} {xs : List α}
    (h : ∀ x ∈ xs, (f x).map g = [x]) : (xs.flatMap f).map g = xs := by
  induction xs with
  | nil => rfl
  | cons x xs ih =>
    rw [List.flatMap_cons, List.map_append, h x (List.mem_cons_self ..),
      ih fun y hy => h y (List.mem_cons_of_mem _ hy)]
    rfl

theorem callsOf_of_no_offers (h : offersTo i log = []) : callsOf i log = (chunksTo i log).map .samples := by
  rw [offersTo, List.flatMap_eq_nil_iff] at h
  refine (map_flatMap_self fun call hcall => ?_).symm
  cases call with
  | samples c => rfl
  | mark m => exact absurd (h (.mark m) hcall) (List.cons_ne_nil _ _)

theorem callsOf_of_no_chunks (h : chunksTo i log = []) : callsOf i log = (offersTo i log).map .mark := by
  rw [chunksTo, List.flatMap_eq_nil_iff] at h
  refine (map_flatMap_self fun call hcall => ?_).symm
  cases call with
  | mark m => rfl
  | samples c => exact absurd (h (.samples c) hcall) (List.cons_ne_nil _ _)

theorem Clean.nil : Clean [] := fun _ _ _ h => nomatch h

theorem Clean.append (h : Clean log) (h' : Clean log') : Clean (log ++ log') := by
  intro i call e hmem
  rcases List.mem_append.1 hmem with hmem | hmem
  · exact h i call e hmem
  · exact h' i call e hmem

end Logs

/-- A flow, and what has happened in it. -/
structure Watched (σ : Type) where
  flow : Flow σ
  log : List Happening

namespace Watched
variable {σ : Type} [Protocol σ]

/-- Makes one move of an instance. -/
def move (w : Watched σ) (i : Nat) (call : Handout) : Watched σ × List Mark :=
  let (f, ms) := w.flow.move i fun s => call.reply s
  match w.flow.refusal, w.flow.instances[i]? with
  | none, some _ =>
    let result := match f.refusal with
      | none => .ok ms
      | some e => .error e
    (⟨f, w.log ++ [.called i call result]⟩, ms)
  | _, _ => (⟨f, w.log⟩, ms)

def offer (w : Watched σ) (m : Mark) : List Nat → Watched σ × List (Nat × List Mark)
  | [] => (w, [])
  | i :: rest =>
    let (w', ms) := w.move i (.mark m)
    let (w'', more) := w'.offer m rest
    (w'', (i, ms) :: more)

/-- Reports a mark of an instance, unless the delivery has ended. -/
def report (w : Watched σ) (i : Nat) (m : Mark) : Watched σ :=
  match w.flow.refusal with
  | none => ⟨w.flow.report m, w.log ++ [.reported i m]⟩
  | some _ => w

/-- Delivers the marks of an instance. -/
def deliver : Nat → Watched σ → Nat → List Mark → Watched σ
  | 0, w, _, _ => w
  | depth + 1, w, lower, marks => marks.foldl (fun w m =>
      let (w', derived) := w.offer m (w.flow.uppers lower)
      derived.foldl (fun w d => deliver depth w d.1 d.2) (w'.report lower m)) w

/-- Hands a chunk to an instance and delivers what it finds. -/
def feed (w : Watched σ) (c : Chunk) (i : Nat) : Watched σ :=
  let (w', ms) := w.move i (.samples c)
  deliver w'.flow.instances.length w' i ms

/-- Hands a chunk to every instance that takes samples. -/
def run (w : Watched σ) (c : Chunk) : Watched σ := w.flow.roots.foldl (fun w i => w.feed c i) w

variable (w : Watched σ) (i : Nat) (m : Mark)

theorem flow_move (call : Handout) :
    ((w.move i call).1.flow, (w.move i call).2) = w.flow.move i fun s => call.reply s := by
  unfold move
  dsimp only
  split <;> rfl

theorem flow_offer (us : List Nat) :
    ((w.offer m us).1.flow, (w.offer m us).2) = w.flow.offer m us := by
  induction us generalizing w with
  | nil => rfl
  | cons u us ih =>
    have hmove := Prod.mk.inj (w.flow_move u (.mark m))
    have hrest := Prod.mk.inj (ih (w.move u (.mark m)).1)
    rw [hmove.1] at hrest
    simp only [offer, Flow.offer, hmove.2, hrest.1, hrest.2]
    rfl

omit [Protocol σ] in
theorem flow_report : (w.report i m).flow = w.flow.report m := by
  unfold report Flow.report
  cases h : w.flow.refusal <;> rfl

theorem flow_deliver (depth lower : Nat) (marks : List Mark) :
    (deliver depth w lower marks).flow = Flow.deliver depth w.flow lower marks := by
  induction depth generalizing w lower marks with
  | zero => rfl
  | succ depth ih =>
    have hpairs : ∀ (ds : List (Nat × List Mark)) (w : Watched σ),
        (ds.foldl (fun w d => deliver depth w d.1 d.2) w).flow =
          ds.foldl (fun f d => Flow.deliver depth f d.1 d.2) w.flow := fun ds w =>
      (List.foldl_hom flow fun w d => (ih w d.1 d.2).symm).symm
    unfold deliver Flow.deliver
    refine (List.foldl_hom flow fun w m => ?_).symm
    have hoffer := Prod.mk.inj (w.flow_offer m (w.flow.uppers lower))
    dsimp only
    rw [hpairs, flow_report, hoffer.1, hoffer.2]

theorem flow_feed (c : Chunk) : (w.feed c i).flow = w.flow.feed c i := by
  have hmove := Prod.mk.inj (w.flow_move i (.samples c))
  unfold feed Flow.feed
  dsimp only
  rw [flow_deliver, hmove.1, hmove.2]
  rfl

theorem flow_run (c : Chunk) : (w.run c).flow = w.flow.run c :=
  (List.foldl_hom flow fun w i => (w.flow_feed i c).symm).symm

end Watched

end LogicDecode
