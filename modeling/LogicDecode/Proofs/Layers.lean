import LogicDecode.Proofs.SessionLogs
import LogicDecode.Trial.Decoders
import Mathlib.Data.List.Induction
import Mathlib.Data.List.Infix

/-!
# Sessions decode layer by layer

Delivery goes depth first, mark by mark. Still, if no block is refused, an instance takes just what its
lower one makes, in that order, so it makes what it would make of all of it at once
(`Session.takes_layered`). `Whole` is the log's part of this, and `Ran` that of the instances; both hold
of each block and are put together over all of them.
-/

namespace LogicDecode

/-- A log that leaves no debts. -/
structure Whole (lowers : List (Option Nat)) (log : List Happening) : Prop where
  made : ∀ i, reportsOf i log = madeBy i log
  offers : ∀ u l, lowers[u]? = some (some l) → offersTo u log = reportsOf l log
  answers : ∀ u l, lowers[u]? = some (some l) → (answersOf u log).length = (offersTo u log).length
  /-- What is reported of an instance at any time was made of the marks of the lower one that are. -/
  order : ∀ pre u l, pre <+: log → lowers[u]? = some (some l) →
    reportsOf u pre <+: ((answersOf u log).take (reportsOf l pre).length).flatten

theorem flatten_take_mono {α : Type} {xs ys : List (List α)} {m n : Nat} (h : xs <+: ys) (hmn : m ≤ n) :
    (xs.take m).flatten <+: (ys.take n).flatten := by
  obtain ⟨zs, hzs⟩ := (h.take m).trans (List.take_prefix_take_left hmn)
  exact ⟨zs.flatten, by rw [← hzs, List.flatten_append]⟩

namespace Lawful
variable {lowers : List (Option Nat)} {log : List Happening}

theorem order (hs : Lawful lowers log) {pre : List Happening} (hpre : pre <+: log) {u l : Nat}
    (hu : lowers[u]? = some (some l)) :
    reportsOf u pre <+: ((answersOf u log).take (reportsOf l pre).length).flatten := by
  induction pre using List.reverseRecOn with
  | nil => exact List.nil_prefix
  | append_singleton pre h ih =>
    have hfront : pre <+: log := (List.prefix_append pre [h]).trans hpre
    -- what was reported before stays below, since the lower one's reports only grow
    have hmono : reportsOf u pre <+:
        ((answersOf u log).take (reportsOf l (pre ++ [h])).length).flatten := by
      refine (ih hfront).trans (flatten_take_mono List.prefix_rfl ?_)
      rw [reportsOf_append, List.length_append]
      exact Nat.le_add_right _ _
    cases h with
    | called => simpa using hmono
    | reported v m =>
      by_cases hv : v = u
      · subst hv
        obtain ⟨post, rfl⟩ := hpre
        have ha : Allowed lowers pre (.reported v m) := hs pre _ post (List.append_assoc ..)
        have hanswers : answersOf v pre <+: answersOf v (pre ++ [.reported v m] ++ post) := by
          rw [List.append_assoc, answersOf_append]
          exact List.prefix_append ..
        have hle : (reportsOf l pre).length ≤ (reportsOf l (pre ++ [.reported v m])).length := by
          rw [reportsOf_append, List.length_append]
          exact Nat.le_add_right _ _
        have hreports : reportsOf v (pre ++ [.reported v m]) = reportsOf v pre ++ [m] := by simp
        rw [hreports]
        exact (ha l hu).trans (flatten_take_mono hanswers hle)
      · simpa [hv] using hmono

end Lawful

namespace Whole
variable {lowers : List (Option Nat)} {log log' : List Happening}

theorem nil : Whole lowers [] where
  made _ := rfl
  offers _ _ _ := rfl
  answers _ _ _ := rfl
  order pre _ _ h _ := by rw [List.prefix_nil.1 h]; exact List.nil_prefix

theorem append (h : Whole lowers log) (h' : Whole lowers log') : Whole lowers (log ++ log') where
  made i := by rw [reportsOf_append, madeBy_append, h.made, h'.made]
  offers u l hu := by rw [offersTo_append, reportsOf_append, h.offers u l hu, h'.offers u l hu]
  answers u l hu := by
    rw [answersOf_append, offersTo_append, List.length_append, List.length_append, h.answers u l hu,
      h'.answers u l hu]
  order pre u l hpre hu := by
    obtain ⟨post, heq⟩ := hpre
    rcases List.append_eq_append_iff.1 heq with ⟨rest, hlog, -⟩ | ⟨pre', rfl, hlog'⟩
    · have hpre : pre <+: log := ⟨rest, hlog.symm⟩
      refine (h.order pre u l hpre hu).trans (flatten_take_mono ?_ (Nat.le_refl _))
      rw [answersOf_append]
      exact List.prefix_append ..
    · have hpre' : pre' <+: log' := ⟨post, hlog'.symm⟩
      -- the first log has answered all that it reports
      have hlength : (reportsOf l log).length = (answersOf u log).length := by
        rw [h.answers u l hu, h.offers u l hu]
      rw [reportsOf_append, reportsOf_append, answersOf_append, List.length_append, hlength,
        List.take_length_add_append, List.flatten_append, h.made]
      exact (List.prefix_append_right_inj _).2 (h'.order pre' u l hpre' hu)

end Whole

variable {σ : Type} [Protocol σ]

namespace Session
variable {s : Session σ} {b : Block}

theorem whole_logOf (h : (s.take b).outcome = .ok ()) : Whole (lowersOf s.instances) (s.logOf b) := by
  obtain ⟨hb, hlog, -, -⟩ := balanced_of_accepted h
  have hlawful := (told s b).lawful
  rw [hlog] at hlawful ⊢
  refine ⟨fun i => ?_, fun u l hu => ?_, hb.answers, fun pre u l hpre hu => hlawful.order hpre hu⟩
  · rw [hb.made, List.append_nil]
  · rw [hb.offers u l hu, List.append_nil]

theorem ran_logOf (h : (s.take b).outcome = .ok ()) :
    Ran s.instances (s.take b).session.instances (s.logOf b) := by
  obtain ⟨hb, hlog, hinstances, -⟩ := balanced_of_accepted h
  rw [hlog, hinstances]
  exact hb.ran

/-- What blocks do that are all accepted. -/
structure Accepted (s : Session σ) (bs : List Block) (log : List Happening) : Prop where
  whole : Whole (lowersOf s.instances) log
  ran : Ran s.instances (s.after bs).instances log
  chunks : ∀ i, chunksTo i log = if (lowersOf s.instances)[i]? = some none then bs.map Block.chunk else []
  no_offers : ∀ i, (lowersOf s.instances)[i]? = some none → offersTo i log = []

theorem accepted {bs : List Block} (h : ∀ d ∈ s.takes bs, d.outcome = .ok ()) :
    Accepted s bs (s.logs bs).flatten := by
  induction bs generalizing s with
  | nil => exact ⟨.nil, .nil, fun i => by split <;> rfl, fun _ _ => rfl⟩
  | cons b bs ih =>
    have hb := h _ (List.mem_cons_self ..)
    obtain ⟨hwhole, hran, hchunks, hoffers⟩ := ih fun d hd => h d (List.mem_cons_of_mem _ hd)
    have ht := told s b
    rw [ht.lowers] at hwhole hchunks hoffers
    rw [logs, List.flatten_cons]
    refine ⟨(whole_logOf hb).append hwhole, (ran_logOf hb).append hran, fun i => ?_, fun i hi => ?_⟩
    · rw [chunksTo_append, hchunks, (balanced_of_accepted hb).2.2.2]
      split <;> rfl
    · rw [offersTo_append, ht.lawful.no_offers hi, hoffers i hi, List.append_nil]

/-- If all blocks are accepted, an instance without a lower one takes their chunks and any other the marks
of its lower one, each once and in order, and makes of them what it makes of all at once. All marks are
reported, those of an instance in order, and those made of a mark behind it. -/
theorem takes_layered (s : Session σ) (hs : s.reporting = true) (bs : List Block)
    (hok : ∀ d ∈ s.takes bs, d.outcome = .ok ()) :
    let log := (s.logs bs).flatten
    (∀ i x, s.instances[i]? = some x → x.lower = none →
      callsOf i log = (bs.map Block.chunk).map .samples ∧
        ∃ t fs, (s.after bs).instances[i]? = some { x with state := t } ∧
          takeAll Protocol.decode x.state (bs.map Block.chunk) = ⟨t, .ok fs⟩ ∧
          madeBy i log = fs.map (Finding.sign x.decoder)) ∧
      (∀ u x l, s.instances[u]? = some x → x.lower = some l →
        callsOf u log = (madeBy l log).map .mark ∧
          ∃ t fs, (s.after bs).instances[u]? = some { x with state := t } ∧
            takeAll Protocol.derive x.state (madeBy l log) = ⟨t, .ok fs⟩ ∧
            madeBy u log = fs.map (Finding.sign x.decoder)) ∧
      (s.takes bs).flatMap Delivered.reported = reportsIn log ∧
      (∀ i, reportsOf i log = madeBy i log) ∧
      ∀ u x l, s.instances[u]? = some x → x.lower = some l →
        (answersOf u log).length = (madeBy l log).length ∧
          ∀ pre, pre <+: log → reportsOf u pre <+: ((answersOf u log).take (reportsOf l pre).length).flatten := by
  intro log
  obtain ⟨hwhole, hran, hchunks, hoffers⟩ := accepted hok
  have hlower : ∀ (i : Nat) (x : Instance σ), s.instances[i]? = some x → (lowersOf s.instances)[i]? = some x.lower := by
    intro i x hx
    rw [lowersOf, List.getElem?_map, hx]; rfl
  -- the marks taken are those reported, and these are those made
  have htaken : ∀ u l, (lowersOf s.instances)[u]? = some (some l) → offersTo u log = madeBy l log :=
    fun u l hu => (hwhole.offers u l hu).trans (hwhole.made l)
  refine ⟨fun i x hx hroot => ?_, fun u x l hx hl => ?_, ?_, hwhole.made, fun u x l hx hl => ?_⟩
  · have hi := hroot ▸ hlower i x hx
    have hcalls : callsOf i log = (bs.map Block.chunk).map .samples := by
      rw [callsOf_of_no_offers (hoffers i hi), hchunks, if_pos hi]
    obtain ⟨t, fs, ht, htake, hmade⟩ := hran i x hx
    rw [hcalls, takeAll_map] at htake
    exact ⟨hcalls, t, fs, ht, htake, hmade⟩
  · have hu := hl ▸ hlower u x hx
    have hnone : chunksTo u log = [] := by
      rw [hchunks, hu]; rfl
    have hcalls : callsOf u log = (madeBy l log).map .mark := by
      rw [callsOf_of_no_chunks hnone, htaken u l hu]
    obtain ⟨t, fs, ht, htake, hmade⟩ := hran u x hx
    rw [hcalls, takeAll_map] at htake
    exact ⟨hcalls, t, fs, ht, htake, hmade⟩
  · rw [List.flatMap_def, reported_takes hs, reportsIn, List.filterMap_flatten]
    rfl
  · have hu := hl ▸ hlower u x hx
    refine ⟨?_, fun pre hpre => hwhole.order pre u l hpre hu⟩
    rw [hwhole.answers u l hu, htaken u l hu]

/-- An echo and two counters, one on each of the others, over two blocks. -/
theorem takes_layered_echo_counters :
    let s : Session Trial := ⟨Trial.registry, [⟨"high", .high 0 0, none⟩, ⟨"echo", .echo, some 0⟩,
      ⟨"count", .count 0 (-1), some 0⟩, ⟨"count", .count 0 (-1), some 1⟩], 0, true, true, none⟩
    let bs : List Block := [⟨0, 2, #[1, 1], 1⟩, ⟨2, 3, #[1], 1⟩]
    s.reporting = true ∧ (∀ d ∈ s.takes bs, d.outcome = .ok ()) ∧
      callsOf 3 (s.logs bs).flatten = (madeBy 1 (s.logs bs).flatten).map .mark ∧
      (madeBy 1 (s.logs bs).flatten).length = 6 := by
  intro s bs
  have hok : ∀ d ∈ s.takes bs, d.outcome = .ok () := by decide +kernel
  obtain ⟨-, huppers, -⟩ := s.takes_layered rfl bs hok
  exact ⟨rfl, hok, (huppers 3 _ 1 rfl rfl).1, by decide +kernel⟩

end Session

end LogicDecode
