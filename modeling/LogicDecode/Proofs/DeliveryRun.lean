import LogicDecode.Proofs.Steady
import Mathlib.Tactic.Set

/-!
# Runs of a delivery

From single moves to the delivery of a chunk: `Steady.deliver` pays the marks of one instance, with all
that they lead to above it, and `Steady.run` starts with nothing owed and ends so. The induction of a
delivery is on the depth and, inside, on the marks; what it leaves alone are the instances that are not
above the one it pays, whose debts are open meanwhile.

`Watched.deliver_keeps_among` is for what every call with a mark and every report keeps.
-/

namespace LogicDecode

variable {σ : Type} [Protocol σ]

namespace Watched

theorem fst_offer (w : Watched σ) (m : Mark) (us : List Nat) : (w.offer m us).2.map Prod.fst = us := by
  induction us generalizing w with
  | nil => rfl
  | cons u us ih => exact congrArg (u :: ·) (ih _)

/-- What every call with a mark and every report of some instances keeps, among which are all above them. -/
theorem deliver_keeps_among (P : Watched σ → Prop) (Q : Nat → Prop)
    (habove : ∀ w l, P w → Q l → ∀ u ∈ w.flow.uppers l, Q u) (hmove : ∀ w i m, P w → Q i → P (w.move i (.mark m)).1)
    (hreport : ∀ w i m, P w → Q i → P (w.report i m)) {w : Watched σ} (depth : Nat) {l : Nat} (marks : List Mark)
    (hl : Q l) (h : P w) : P (deliver depth w l marks) := by
  have hoffer : ∀ (us : List Nat) (w : Watched σ) (m : Mark), P w → (∀ u ∈ us, Q u) → P (w.offer m us).1 := by
    intro us
    induction us with
    | nil => exact fun w m h _ => h
    | cons u us ih =>
      exact fun w m h hus => ih _ m (hmove w u m h (hus u (List.mem_cons_self ..)))
        fun v hv => hus v (List.mem_cons_of_mem _ hv)
  -- on the depth, inside over the marks, and inside over what is made of a mark
  induction depth generalizing w l marks with
  | zero => exact h
  | succ depth ih =>
    unfold deliver
    refine List.foldlRecOn marks _ h fun w hw m _ => ?_
    have hus := habove w l hw hl
    have hstart := hreport _ l m (hoffer (w.flow.uppers l) w m hw hus) hl
    rw [← w.fst_offer m (w.flow.uppers l)] at hus
    exact List.foldlRecOn _ _ hstart fun w' hw' d hd => ih d.2 (hus d.1 (List.mem_map_of_mem hd)) hw'

/-- What every call with a mark and every report keeps. -/
theorem deliver_keeps (P : Watched σ → Prop) (hmove : ∀ w i m, P w → P (w.move i (.mark m)).1)
    (hreport : ∀ w i m, P w → P (w.report i m)) {w : Watched σ} (depth l : Nat) (marks : List Mark)
    (h : P w) : P (deliver depth w l marks) :=
  deliver_keeps_among P (fun _ => True) (fun _ _ _ _ _ _ => trivial) (fun w i m h _ => hmove w i m h)
    (fun w i m h _ => hreport w i m h) depth marks trivial h

variable {w : Watched σ} {e : EngineError}

theorem deliver_refused (h : w.flow.refusal = some e) (depth l : Nat) (marks : List Mark) :
    deliver depth w l marks = w := by
  refine deliver_keeps (fun w' => w' = w) (fun w' i m hw => ?_) (fun w' i m hw => ?_) depth l marks rfl
  · rw [hw, move_refused h]
  · rw [hw, report_refused h]

theorem feed_refused (h : w.flow.refusal = some e) (c : Chunk) (i : Nat) : w.feed c i = w := by
  unfold feed
  rw [move_refused h]
  exact deliver_refused h _ _ _

theorem feeds_refused (h : w.flow.refusal = some e) (c : Chunk) (is : List Nat) :
    is.foldl (fun w i => w.feed c i) w = w := by
  induction is with
  | nil => rfl
  | cons i is ih => rw [List.foldl_cons, feed_refused h, ih]

theorem servedOf_deliver (depth l : Nat) (marks : List Mark) :
    servedOf (deliver depth w l marks).log = servedOf w.log := by
  refine deliver_keeps (fun w' => servedOf w'.log = servedOf w.log) (fun w' j m hw => ?_)
    (fun w' j m hw => ?_) depth l marks rfl
  · unfold move
    dsimp only
    split
    · simp [hw]
    · exact hw
  · unfold report
    split
    · simp [hw]
    · exact hw

end Watched

/-- What instances are owed when some are owed other marks. -/
def owing (owed : Tally) (ds : List (Nat × List Mark)) : Tally := fun i => (ds.lookup i).getD (owed i)

section Owing
variable {owed : Tally} {ds : List (Nat × List Mark)} {i u : Nat} {ms : List Mark}

theorem owing_of_notMem (h : i ∉ ds.map Prod.fst) : owing owed ds i = owed i := by
  have hnone : ds.lookup i = none := List.lookup_eq_none_iff.2 fun d hd => by
    rw [bne_iff_ne]
    rintro rfl
    exact h (List.mem_map_of_mem hd)
  rw [owing, hnone]; rfl

theorem owing_cons_self : owing owed ((u, ms) :: ds) u = ms := by
  simp [owing]

theorem owing_cons_of_ne (h : i ≠ u) : owing owed ((u, ms) :: ds) i = owing owed ds i := by
  simp [owing, List.lookup_cons, beq_eq_false_iff_ne.2 h]

theorem owing_cons (h : u ∉ ds.map Prod.fst) :
    owing owed ((u, ms) :: ds) = owing (Function.update owed u ms) ds := by
  funext i
  by_cases hi : i = u
  · subst hi
    rw [owing_cons_self, owing_of_notMem h, Function.update_self]
  · rw [owing_cons_of_ne hi, owing, owing, Function.update_of_ne hi]

theorem update_owing (h : u ∉ ds.map Prod.fst) :
    Function.update (owing owed ds) u ms = owing (Function.update owed u ms) ds := by
  funext i
  by_cases hi : i = u
  · subst hi
    rw [Function.update_self, owing_of_notMem h, Function.update_self]
  · rw [Function.update_of_ne hi, owing, owing, Function.update_of_ne hi]

theorem update_owing_cons (h : u ∉ ds.map Prod.fst) (hu : owed u = []) :
    Function.update (owing owed ((u, ms) :: ds)) u [] = owing owed ds := by
  funext i
  by_cases hi : i = u
  · subst hi
    rw [Function.update_self, owing_of_notMem h, hu]
  · rw [Function.update_of_ne hi, owing_cons_of_ne hi]

/-- Debts of an instance leave those above its level as they are. -/
theorem update_above {lowers : List (Option Nat)} {l d : Nat} (hl : Level lowers l d)
    (h : ∀ i k, Level lowers i k → d < k → owed i = []) :
    ∀ i k, Level lowers i k → d < k → Function.update owed l ms i = [] := by
  intro i k hi hk
  rw [Function.update_of_ne (hi.ne hl (by omega))]
  exact h i k hi hk

end Owing

namespace Steady
variable {xs : List (Instance σ)} {owed ahead : Tally} {w : Watched σ} {l d : Nat} {m : Mark}

/-- Offers a mark: those it is offered to have taken it, and are owed what they made of it. -/
theorem offer {us : List Nat} (h : Steady xs owed ahead w)
    (hus : ∀ u ∈ us, (lowersOf xs)[u]? = some (some l) ∧ owed u = [] ∧ ahead u = []) (hnodup : us.Nodup) :
    Steady xs (owing owed (w.offer m us).2) (fun u => if u ∈ us then [m] else ahead u) (w.offer m us).1 := by
  induction us generalizing w owed ahead with
  | nil =>
    simp only [List.not_mem_nil, if_false]
    exact h
  | cons u us ih =>
    obtain ⟨hnotMem, hnodup⟩ := List.nodup_cons.1 hnodup
    obtain ⟨hu, howed, hahead⟩ := hus u (List.mem_cons_self ..)
    have hallowed : w.flow.refusal = none → ∀ r, Allowed (lowersOf xs) w.log (.called u (.mark m) r) := by
      intro hw r
      have hoffers := (h.going hw).offers u l hu
      rw [hahead, List.append_nil] at hoffers
      exact ⟨l, hu, hoffers.symm⟩
    have hmove : Steady xs (Function.update owed u (w.move u (.mark m)).2) (Function.update ahead u [m])
        (w.move u (.mark m)).1 := h.move hallowed howed hahead fun hcon => nomatch hcon
    have hrest := ih hmove (fun v hv => by
      have hne : v ≠ u := fun hcon => hnotMem (hcon ▸ hv)
      rw [Function.update_of_ne hne, Function.update_of_ne hne]
      exact hus v (List.mem_cons_of_mem _ hv)) hnodup
    rw [← (w.move u (.mark m)).1.fst_offer m us] at hnotMem
    have howing : owing owed ((u, (w.move u (.mark m)).2) :: ((w.move u (.mark m)).1.offer m us).2) = _ :=
      owing_cons hnotMem
    have htaken : (fun v => if v ∈ us then [m] else Function.update ahead u [m] v) =
        fun v => if v ∈ u :: us then [m] else ahead v := by
      funext v
      by_cases hv : v = u
      · subst hv
        rw [Watched.fst_offer] at hnotMem
        simp [hnotMem]
      · simp [hv]
    rw [htaken, ← howing] at hrest
    exact hrest

end Steady

/-- Deliveries of some depth pay the instance they are for, and all that this leads to. -/
def Pays (xs : List (Instance σ)) (depth : Nat) : Prop :=
  ∀ (w : Watched σ) (owed : Tally) (l d : Nat), Steady xs owed (fun _ => []) w → Level (lowersOf xs) l d →
    xs.length ≤ d + depth → (∀ i k, Level (lowersOf xs) i k → d < k → owed i = []) →
    Steady xs (Function.update owed l []) (fun _ => []) (Watched.deliver depth w l (owed l))

namespace Pays
variable {xs : List (Instance σ)} {depth : Nat}

theorem zero : Pays xs 0 := by
  intro w owed l d _ hl hdepth _
  have hlt := hl.lt
  rw [lowersOf, List.length_map] at hlt
  omega

/-- Several instances of one level are paid one after the other. -/
theorem each (hp : Pays xs depth) {d : Nat} (hdepth : xs.length ≤ d + depth) {ds : List (Nat × List Mark)}
    {owed : Tally} {w : Watched σ} (h : Steady xs (owing owed ds) (fun _ => []) w)
    (hnodup : (ds.map Prod.fst).Nodup) (hlevels : ∀ u ∈ ds.map Prod.fst, Level (lowersOf xs) u d)
    (habove : ∀ i k, Level (lowersOf xs) i k → d ≤ k → owed i = []) :
    Steady xs owed (fun _ => []) (ds.foldl (fun w d => Watched.deliver depth w d.1 d.2) w) := by
  induction ds generalizing w with
  | nil => exact h
  | cons d' ds ih =>
    obtain ⟨u, ms⟩ := d'
    obtain ⟨hnotMem, hnodup⟩ := List.nodup_cons.1 hnodup
    have hlevel := hlevels u (List.mem_cons_self ..)
    have hpaid := hp w (owing owed ((u, ms) :: ds)) u d h hlevel hdepth fun i k hi hk => by
      have hnotMem' : i ∉ ((u, ms) :: ds).map Prod.fst := fun hmem => hi.ne (hlevels i hmem) (by omega) rfl
      rw [owing_of_notMem hnotMem']
      exact habove i k hi (by omega)
    rw [owing_cons_self, update_owing_cons hnotMem (habove u d hlevel (Nat.le_refl d))] at hpaid
    exact ih hpaid hnodup fun v hv => hlevels v (List.mem_cons_of_mem _ hv)

/-- One mark: it is offered above, reported, and what is made of it is paid. -/
theorem mark (hp : Pays xs depth) {w : Watched σ} {owed : Tally} {l d : Nat} {m : Mark} {rest : List Mark}
    (h : Steady xs owed (fun _ => []) w) (hl : Level (lowersOf xs) l d)
    (hdepth : xs.length ≤ d + (depth + 1)) (howed : owed l = m :: rest)
    (habove : ∀ i k, Level (lowersOf xs) i k → d < k → owed i = []) :
    Steady xs (Function.update owed l rest) (fun _ => [])
      ((w.offer m (w.flow.uppers l)).2.foldl (fun w d => Watched.deliver depth w d.1 d.2)
        ((w.offer m (w.flow.uppers l)).1.report l m)) := by
  have hupper : ∀ u ∈ w.flow.uppers l, (lowersOf xs)[u]? = some (some l) := fun u hu =>
    h.lowers ▸ w.flow.mem_uppers.1 hu
  have hlevels : ∀ u ∈ w.flow.uppers l, Level (lowersOf xs) u (d + 1) := fun u hu => .upper (hupper u hu) hl
  have hfst := w.fst_offer m (w.flow.uppers l)
  have hoffer := h.offer (m := m) (fun u hu =>
    ⟨hupper u hu, habove u (d + 1) (hlevels u hu) (Nat.lt_succ_self d), rfl⟩) (w.flow.nodup_numbers _)
  set derived := (w.offer m (w.flow.uppers l)).2
  have hnotMem : l ∉ derived.map Prod.fst := fun hmem =>
    (hlevels l (hfst ▸ hmem)).ne hl (Nat.succ_ne_self d) rfl
  have howed' : owing owed derived l = m :: rest := (owing_of_notMem hnotMem).trans howed
  have hreport := hoffer.report hl howed' fun u => by
    simp only [w.flow.mem_uppers, h.lowers]
  -- the rest of the marks and what is made of this one are debts of different instances
  rw [update_owing hnotMem] at hreport
  refine hp.each (by omega) hreport (hfst ▸ w.flow.nodup_numbers _) (fun u hu => hlevels u (hfst ▸ hu)) ?_
  exact update_above hl habove

theorem succ (hp : Pays xs depth) : Pays xs (depth + 1) := by
  intro w owed l d h hl hdepth habove
  -- the marks behind the one that is paid are still owed
  generalize hmarks : owed l = marks
  unfold Watched.deliver
  induction marks generalizing w owed with
  | nil =>
    have hsame : Function.update owed l [] = owed := by rw [← hmarks, Function.update_eq_self]
    rw [hsame]
    exact h
  | cons m rest ih =>
    have hmark := hp.mark h hl hdepth hmarks habove
    have hrest := ih _ (Function.update owed l rest) hmark (update_above hl habove) (Function.update_self ..)
    rw [Function.update_idem] at hrest
    exact hrest

theorem all (xs : List (Instance σ)) (depth : Nat) : Pays xs depth := by
  induction depth with
  | zero => exact zero
  | succ depth ih => exact ih.succ

end Pays

namespace Steady
variable {xs : List (Instance σ)} {w : Watched σ} {c : Chunk}

theorem init (xs : List (Instance σ)) :
    Steady xs (fun _ => []) (fun _ => []) ⟨Flow.ofInstances xs, []⟩ where
  lowers := rfl
  lawful := .nil
  reported := rfl
  going _ := ⟨.nil, fun _ => rfl, fun _ _ _ => rfl, fun _ _ _ => rfl, .nil⟩
  stopped _ he := nomatch he

theorem feed (h : Steady xs (fun _ => []) (fun _ => []) w) {i : Nat} (hi : (lowersOf xs)[i]? = some none) :
    Steady xs (fun _ => []) (fun _ => []) (w.feed c i) := by
  have hmove : Steady xs (Function.update (fun _ => []) i (w.move i (.samples c)).2)
      (Function.update (fun _ => []) i []) (w.move i (.samples c)).1 :=
    h.move (fun _ _ => hi) rfl rfl fun _ _ => rfl
  rw [Function.update_eq_self] at hmove
  have hlength : (w.move i (.samples c)).1.flow.instances.length = xs.length := by
    have hlength := congrArg List.length hmove.lowers
    simpa only [lowersOf, List.length_map] using hlength
  have hpaid := Pays.all xs xs.length _ _ i 0 hmove (.root hi) (Nat.le_add_left ..)
    (update_above (.root hi) fun _ _ _ _ => rfl)
  rw [Function.update_self, Function.update_idem, Function.update_eq_self, ← hlength] at hpaid
  exact hpaid

/-- A chunk is paid in full. -/
theorem run (h : Steady xs (fun _ => []) (fun _ => []) w) :
    Steady xs (fun _ => []) (fun _ => []) (w.run c) := by
  have hroots : ∀ i ∈ w.flow.roots, (lowersOf xs)[i]? = some none := fun i hi =>
    h.lowers ▸ w.flow.mem_roots.1 hi
  exact List.foldlRecOn w.flow.roots _ h fun w' h' i hi => h'.feed (hroots i hi)

end Steady

namespace Watched
variable {w : Watched σ} {c : Chunk}

theorem servedOf_feed {i : Nat} {x : Instance σ} (hw : w.flow.refusal = none) (hx : w.flow.instances[i]? = some x) :
    servedOf (w.feed c i).log = servedOf w.log ++ [(i, c)] := by
  unfold feed
  rw [servedOf_deliver]
  unfold move
  simp [hw, hx]

variable {xs : List (Instance σ)}

/-- A delivery that is not refused gives the chunk to all instances that take samples, one after the other; one that
is gives it to the first of them, at the least. -/
theorem servedOf_run (h : Steady xs (fun _ => []) (fun _ => []) w) (hw : w.flow.refusal = none) :
    ∃ k, servedOf (w.run c).log = servedOf w.log ++ (w.flow.roots.take k).map (·, c) ∧
      ((w.run c).flow.refusal = none → k = w.flow.roots.length) ∧ (w.flow.roots ≠ [] → 0 < k) := by
  have hroots : ∀ i ∈ w.flow.roots, (lowersOf xs)[i]? = some none := fun i hi => h.lowers ▸ w.flow.mem_roots.1 hi
  unfold run
  generalize w.flow.roots = roots at hroots
  induction roots generalizing w with
  | nil => exact ⟨0, by simp, fun _ => rfl, fun hne => absurd rfl hne⟩
  | cons i roots ih =>
    have hi := hroots i (List.mem_cons_self ..)
    obtain ⟨x, hx, -⟩ := exists_instance (h.lowers ▸ hi)
    have hfed := servedOf_feed (c := c) hw hx
    rw [List.foldl_cons]
    cases hend : (w.feed c i).flow.refusal with
    | some e =>
      rw [feeds_refused hend, hend]
      exact ⟨1, by simpa using hfed, nofun, fun _ => Nat.one_pos⟩
    | none =>
      obtain ⟨k, hserved, hall, -⟩ := ih (h.feed hi) hend fun j hj => hroots j (List.mem_cons_of_mem _ hj)
      refine ⟨k + 1, ?_, fun hnone => congrArg (· + 1) (hall hnone), fun _ => Nat.succ_pos k⟩
      rw [hserved, hfed]
      simp

omit [Protocol σ] in
/-- Of instances that are all given a chunk, each is given it once. -/
theorem chunk_of_served {is : List Nat} (h : is.Nodup) (j : Nat) :
    (is.map (·, c)).filterMap (fun p => if p.1 = j then some p.2 else none) = if j ∈ is then [c] else [] := by
  induction is with
  | nil => rfl
  | cons i is ih =>
    obtain ⟨hnotMem, hnodup⟩ := List.nodup_cons.1 h
    rw [List.map_cons, List.filterMap_cons, ih hnodup]
    by_cases hij : i = j
    · subst hij
      simp [hnotMem]
    · simp [hij, Ne.symm hij]

/-- The instances that take samples take the chunk once, and the others do not. -/
theorem chunksTo_run (h : Steady xs (fun _ => []) (fun _ => []) w) (hw : (w.run c).flow.refusal = none) (j : Nat) :
    chunksTo j (w.run c).log = chunksTo j w.log ++ if (lowersOf xs)[j]? = some none then [c] else [] := by
  have hgoing : w.flow.refusal = none := by
    cases hgoing : w.flow.refusal with
    | none => rfl
    | some e =>
      rw [run, feeds_refused hgoing, hgoing] at hw
      cases hw
  obtain ⟨k, hserved, hall, -⟩ := servedOf_run (c := c) h hgoing
  have hnodup : w.flow.roots.Nodup := w.flow.nodup_numbers _
  rw [chunksTo_eq_served, hserved, hall hw, List.take_length, List.filterMap_append, ← chunksTo_eq_served,
    chunk_of_served hnodup]
  simp only [w.flow.mem_roots, h.lowers]

end Watched

end LogicDecode
