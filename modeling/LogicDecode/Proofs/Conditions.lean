import LogicDecode.Fault
import LogicDecode.Setup

/-!
# Conditions on setups

What a decoder asks of a setup is a list of conditions, each with the refusal of a setup that violates it. A setup
is refused by the first condition that it violates (`Refuses`), and a decoder is made of it if there is none
(`MadeOf`).

`Checks` says so of a part of what is checked. Checks follow each other as their conditions do (`Checks.bind`), so
the conditions of a decoder are read off its checks.
-/

namespace LogicDecode

namespace Setup
variable (s : Setup)

/-- The integer of an option, or the one that stands for it when there is none. -/
def intOr (id : String) (default : Int) : Int :=
  match s.option? id with
  | some (.int n) => n
  | _ => default

/-- The text of an option, or the one that stands for it when there is none. -/
def textOr (id default : String) : String :=
  match s.option? id with
  | some (.str t) => t
  | _ => default

end Setup

/-- A condition on setups, with the refusal of one that violates it. -/
structure Condition where
  holds : Setup → Prop
  refusal : Setup → EngineError

namespace Condition

def assigned (id : String) : Condition := ⟨fun s => (s.channel? id).isSome, fun s => s.missing id⟩

/-- One of some channels is assigned; a refusal calls them by a common name. -/
def assignedAny (ids : List String) (name : String) : Condition :=
  ⟨fun s => ∃ id ∈ ids, (s.channel? id).isSome, fun s => s.missing name⟩

/-- An option is not set, or it is one of some integers. -/
def integer (id : String) (p : Int → Prop) (reason : Int → String) : Condition where
  holds s := ∀ v ∈ s.option? id, ∃ n, v = .int n ∧ p n
  refusal s := s.invalid id (match s.option? id with
    | some (.int n) => reason n
    | _ => "expected an integer")

def flag (id : String) : Condition := integer id (fun n => n = 0 ∨ n = 1) fun n => s!"expected 0 or 1, got {n}"

/-- An option is not set, or it is one of some texts. -/
def text (id : String) (texts : List String) (reason : String → String) : Condition where
  holds s := ∀ v ∈ s.option? id, ∃ t ∈ texts, v = .str t
  refusal s := s.invalid id (match s.option? id with
    | some (.str t) => reason t
    | _ => "expected a string")

end Condition

/-- The first of some conditions that a setup violates refuses it. -/
inductive Refuses (s : Setup) : List Condition → EngineError → Prop
  | here {c : Condition} {cs : List Condition} (h : ¬c.holds s) : Refuses s (c :: cs) (c.refusal s)
  | later {c : Condition} {cs : List Condition} {e : EngineError} (h : c.holds s) (hrest : Refuses s cs e) :
    Refuses s (c :: cs) e

section Refuses
variable {s : Setup} {cs cs' : List Condition} {e e' : EngineError}

theorem Refuses.append (h : Refuses s cs e) : Refuses s (cs ++ cs') e := by
  induction h with
  | here h => exact .here h
  | later h _ ih => exact .later h ih

theorem Refuses.behind (hcs : ∀ c ∈ cs, c.holds s) (h : Refuses s cs' e) : Refuses s (cs ++ cs') e := by
  induction cs with
  | nil => exact h
  | cons c cs ih =>
    exact .later (hcs c (List.mem_cons_self ..)) (ih fun c' hc' => hcs c' (List.mem_cons_of_mem _ hc'))

theorem Refuses.not_all (h : Refuses s cs e) : ¬∀ c ∈ cs, c.holds s := by
  intro hcs
  induction h with
  | here h => exact h (hcs _ (List.mem_cons_self ..))
  | later _ _ ih => exact ih fun c hc => hcs c (List.mem_cons_of_mem _ hc)

theorem Refuses.unique (h : Refuses s cs e) (h' : Refuses s cs e') : e = e' := by
  induction h with
  | here h =>
    cases h' with
    | here => rfl
    | later h' => exact absurd h' h
  | later h _ ih =>
    cases h' with
    | here h' => exact absurd h h'
    | later _ hrest => exact ih hrest

end Refuses

/-- A check that passes if the conditions hold, with an answer as described, and is refused by the first one
violated. -/
inductive Checks {α : Type} (s : Setup) (cs : List Condition) (P : α → Prop) : Except EngineError α → Prop
  | passes {a : α} (hcs : ∀ c ∈ cs, c.holds s) (ha : P a) : Checks s cs P (.ok a)
  | refused {e : EngineError} (h : Refuses s cs e) : Checks s cs P (.error e)

namespace Checks
variable {α β : Type} {s : Setup} {cs cs' : List Condition} {P : α → Prop} {Q : β → Prop}

theorem done {a : α} (ha : P a) : Checks s [] P (.ok a) := .passes nofun ha

theorem violated {c : Condition} (h : ¬c.holds s) : Checks s (c :: cs) P (.error (c.refusal s)) := .refused (.here h)

theorem bind {x : Except EngineError α} {k : α → Except EngineError β} (h : Checks s cs P x)
    (hk : ∀ a, P a → Checks s cs' Q (k a)) : Checks s (cs ++ cs') Q (x >>= k) := by
  cases h with
  | refused h => exact .refused h.append
  | @passes a hcs ha =>
    have hrest := hk a ha
    show Checks s (cs ++ cs') Q (k a)
    cases hr : k a with
    | error e =>
      rw [hr] at hrest
      cases hrest with
      | refused h => exact .refused (.behind hcs h)
    | ok b =>
      rw [hr] at hrest
      cases hrest with
      | passes hcs' hb => exact .passes (List.forall_mem_append.2 ⟨hcs, hcs'⟩) hb

theorem holding {c : Condition} {x : Except EngineError α} (hc : c.holds s) (h : Checks s cs P x) :
    Checks s (c :: cs) P x := by
  cases h with
  | refused h => exact .refused (.later hc h)
  | passes hcs ha => exact .passes (List.forall_mem_cons.2 ⟨hc, hcs⟩) ha

theorem channel (id : String) : Checks s [.assigned id] (fun bit => s.channel? id = some bit) (s.channel id) := by
  unfold Setup.channel
  split
  · rename_i bit hbit
    exact .passes (by simp [Condition.assigned, hbit]) hbit
  · rename_i hnone
    exact violated (c := .assigned id) (by simp [Condition.assigned, hnone])

section Options
variable {id : String}

theorem integer {p : Int → Prop} {reason : Int → String} {default : Int} {k : Int → Except EngineError α}
    (hdefault : p default) (hk : ∀ n, p n → s.intOr id default = n → Checks s cs P (k n))
    (hbad : ∀ n, ¬p n → k n = .error (s.invalid id (reason n))) :
    Checks s (.integer id p reason :: cs) P (s.int id default >>= k) := by
  cases ho : s.option? id with
  | none =>
    have hint : s.int id default = .ok default := by rw [Setup.int, ho]
    rw [hint]
    exact holding (by simp [Condition.integer, ho]) (hk default hdefault (by rw [Setup.intOr, ho]))
  | some v =>
    cases v with
    | int n =>
      have hint : s.int id default = .ok n := by rw [Setup.int, ho]
      rw [hint]
      by_cases hn : p n
      · exact holding (by simpa [Condition.integer, ho] using hn) (hk n hn (by rw [Setup.intOr, ho]))
      · have hrefusal : (Condition.integer id p reason).refusal s = s.invalid id (reason n) := by
          simp [Condition.integer, ho]
        show Checks s _ P (k n)
        rw [hbad n hn, ← hrefusal]
        exact violated (by simpa [Condition.integer, ho] using hn)
    | float x | str t =>
      have hint : s.int id default = .error ((Condition.integer id p reason).refusal s) := by
        simp [Setup.int, Condition.integer, ho]
      rw [hint]
      exact violated (by simp [Condition.integer, ho])

theorem text {texts : List String} {reason : String → String} {default : String} {k : String → Except EngineError α}
    (hdefault : default ∈ texts) (hk : ∀ t ∈ texts, s.textOr id default = t → Checks s cs P (k t))
    (hbad : ∀ t, t ∉ texts → k t = .error (s.invalid id (reason t))) :
    Checks s (.text id texts reason :: cs) P (s.str id default >>= k) := by
  cases ho : s.option? id with
  | none =>
    have hstr : s.str id default = .ok default := by rw [Setup.str, ho]
    rw [hstr]
    exact holding (by simp [Condition.text, ho]) (hk default hdefault (by rw [Setup.textOr, ho]))
  | some v =>
    cases v with
    | str t =>
      have hstr : s.str id default = .ok t := by rw [Setup.str, ho]
      rw [hstr]
      by_cases ht : t ∈ texts
      · exact holding (by simpa [Condition.text, ho] using ht) (hk t ht (by rw [Setup.textOr, ho]))
      · have hrefusal : (Condition.text id texts reason).refusal s = s.invalid id (reason t) := by
          simp [Condition.text, ho]
        show Checks s _ P (k t)
        rw [hbad t ht, ← hrefusal]
        exact violated (by simpa [Condition.text, ho] using ht)
    | int n | float x =>
      have hstr : s.str id default = .error ((Condition.text id texts reason).refusal s) := by
        simp [Setup.str, Condition.text, ho]
      rw [hstr]
      exact violated (by simp [Condition.text, ho])

theorem flag (id : String) : Checks s [.flag id] (fun b => b = decide (s.intOr id 0 = 1)) (s.flag id) := by
  refine integer (.inl rfl) (fun n hn hid => ?_) fun n hn => ?_
  · rcases hn with rfl | rfl
    · exact done (by simp [hid])
    · exact done (by simp [hid])
  · split
    · exact absurd (.inl rfl) hn
    · exact absurd (.inr rfl) hn
    · rfl

end Options

end Checks

/-- A decoder is made of a setup just if the conditions hold, and then it is as described. Else the first one violated
refuses the setup. -/
structure MadeOf {δ : Type} (s : Setup) (cs : List Condition) (P : δ → Prop) (o : Outcome EngineError δ) : Prop where
  accepted : (∃ d, o = .ok d) ↔ ∀ c ∈ cs, c.holds s
  refused (e : EngineError) : o = .error (.refused e) ↔ Refuses s cs e
  sound (f : Fault) : o ≠ .error (.fault f)
  made (d : δ) (hd : o = .ok d) : P d

theorem MadeOf.imp {δ : Type} {s : Setup} {cs : List Condition} {P Q : δ → Prop} {o : Outcome EngineError δ}
    (h : MadeOf s cs P o) (hpq : ∀ d, P d → Q d) : MadeOf s cs Q o :=
  ⟨h.accepted, h.refused, h.sound, fun d hd => hpq d (h.made d hd)⟩

theorem Checks.madeOf {α δ : Type} {s : Setup} {cs : List Condition} {P : α → Prop} {Q : δ → Prop}
    {x : Except EngineError α} {k : α → Outcome EngineError δ} (h : Checks s cs P x)
    (hk : ∀ a, P a → ∃ d, k a = .ok d ∧ Q d) : MadeOf s cs Q (Outcome.accept x >>= k) := by
  cases h with
  | @passes a hcs ha =>
    obtain ⟨d, hd, hq⟩ := hk a ha
    show MadeOf s cs Q (k a)
    rw [hd]
    exact ⟨⟨fun _ => hcs, fun _ => ⟨d, rfl⟩⟩, fun e => ⟨nofun, fun h => absurd hcs h.not_all⟩, nofun,
      fun d' hd' => Except.ok.inj hd' ▸ hq⟩
  | @refused e h =>
    show MadeOf s cs Q (.error (.refused e))
    refine ⟨⟨nofun, fun hcs => absurd hcs h.not_all⟩, fun e' => ⟨fun he => ?_, fun h' => ?_⟩, nofun, nofun⟩
    · cases he
      exact h
    · rw [h.unique h']

end LogicDecode
