import LogicDecode.Proofs.Filing

/-!
# Range queries on tracks

A track that was filled by pushes, refused ones among them, holds its marks in the order of their starts. So the
marks that start in front of the end of a range are the first ones, the binary search finds where they end
(`cutPoint_separates`), and nothing behind them reaches into the range: a query gives what a test of every single
mark would give (`Track.queries_of_pushed`). The ends of the marks are not in any order, and need not be.
-/

namespace LogicDecode

section CutPoint
variable {α : Type} {p : α → Bool} {xs : Array α}

/-- A test that no element passes behind one that fails it. -/
def FailsBehind (p : α → Bool) (xs : Array α) : Prop :=
  ∀ (i j : Nat) (x y : α), i ≤ j → xs[i]? = some x → xs[j]? = some y → p y = true → p x = true

/-- All elements in front of a place pass a test, and none does from there on. -/
def Separates (p : α → Bool) (xs : Array α) (n : Nat) : Prop :=
  ∀ (i : Nat) (x : α), xs[i]? = some x → (p x = true ↔ i < n)

theorem cutPoint_separates (h : FailsBehind p xs) {lo hi : Nat} (hle : lo ≤ hi)
    (hlo : ∀ i x, i < lo → xs[i]? = some x → p x = true)
    (hhi : ∀ i x, hi ≤ i → xs[i]? = some x → p x = false) : Separates p xs (cutPoint p xs lo hi) := by
  fun_induction cutPoint p xs lo hi with
  | case1 lo hi hlt mid hnone ih =>
    -- the middle is behind the last element
    refine ih (by omega) hlo fun i x hi' hx => ?_
    have hsize := Array.getElem?_eq_none_iff.1 hnone
    have := (Array.getElem?_eq_some_iff.1 hx).1
    omega
  | case2 lo hi hlt mid x hx hp ih =>
    refine ih (by omega) (fun i y hi' hy => ?_) hhi
    exact h i mid y x (by omega) hy hx hp
  | case3 lo hi hlt mid x hx hp ih =>
    refine ih (by omega) hlo fun i y hi' hy => ?_
    rw [← Bool.not_eq_true]
    exact fun hpy => hp (h mid i x y hi' hx hy hpy)
  | case4 lo hi hge =>
    intro i x hx
    constructor
    · intro hp
      by_contra hi'
      have := hhi i x (by omega) hx
      simp [hp] at this
    · exact fun hi' => hlo i x hi' hx

/-- What only elements in front of the cut satisfy can be looked for there. -/
theorem filter_take_of_separates {n : Nat} (h : Separates p xs n) {q : α → Bool} (hq : ∀ x, q x = true → p x = true) :
    (xs.toList.take n).filter q = xs.toList.filter q := by
  have hbehind : (xs.toList.drop n).filter q = [] := by
    rw [List.filter_eq_nil_iff]
    intro x hx hqx
    obtain ⟨i, hi⟩ := List.mem_iff_getElem?.1 hx
    rw [List.getElem?_drop, Array.getElem?_toList] at hi
    have := (h (n + i) x hi).1 (hq x hqx)
    omega
  calc (xs.toList.take n).filter q
      = (xs.toList.take n).filter q ++ (xs.toList.drop n).filter q := by rw [hbehind, List.append_nil]
    _ = xs.toList.filter q := by rw [← List.filter_append, List.take_append_drop]

end CutPoint

namespace Track

/-- The track after a push, which leaves it as it is if it is refused. -/
def attempt (t : Track) (m : Mark) : Track := (t.push m).toOption.getD t

def pushed (t : Track) (ms : List Mark) : Track := ms.foldl attempt t

/-- A mark is refused by a track whose last mark starts behind it. -/
def Refuses (t : Track) (m : Mark) : Prop := ∃ last, t.marks.back? = some last ∧ m.start < last.start

theorem push_eq (t : Track) (m : Mark) :
    (t.Refuses m ∧ t.push m = .error .sampleOrder) ∨ (¬ t.Refuses m ∧ t.push m = .ok (t.insert m)) := by
  unfold push admits Refuses
  cases h : t.marks.back? with
  | none => simp
  | some last =>
    rcases Nat.lt_or_ge m.start last.start with hlt | hle
    · exact .inl ⟨⟨last, rfl, hlt⟩, if_neg (by simpa using hlt)⟩
    · refine .inr ⟨?_, if_pos (by simpa using hle)⟩
      rintro ⟨_, heq, hlt⟩
      cases heq
      omega

/-- A track that holds the accepted ones of some marks. -/
structure Gathers (ms : List Mark) (t : Track) : Prop where
  holds : ∃ kept, t = ofMarks kept ∧ kept.Sublist ms
  sorted : t.marks.toList.Pairwise fun a b => a.start ≤ b.start

namespace Gathers
variable {ms : List Mark} {t : Track}

theorem empty : Gathers [] empty := ⟨⟨[], rfl, .slnil⟩, .nil⟩

theorem attempt (h : Gathers ms t) (m : Mark) : Gathers (ms ++ [m]) (t.attempt m) := by
  obtain ⟨⟨kept, rfl, hsub⟩, hsorted⟩ := h
  rcases push_eq (ofMarks kept) m with ⟨-, hpush⟩ | ⟨hfree, hpush⟩
  · rw [Track.attempt, hpush]
    exact ⟨⟨kept, rfl, hsub.trans (List.sublist_append_left ..)⟩, hsorted⟩
  · rw [Track.attempt, hpush]
    have hadmits : (ofMarks kept).admits m = true := by
      by_contra hnot
      simp [push, hnot] at hpush
    have hstarts := le_of_admits_ofMarks hsorted hadmits
    refine ⟨⟨kept ++ [m], insert_ofMarks kept m, hsub.append_right [m]⟩, ?_⟩
    show ((ofMarks kept).insert m).marks.toList.Pairwise _
    rw [insert_ofMarks]
    refine List.pairwise_append.2 ⟨hsorted, List.pairwise_singleton .., fun a ha b hb => ?_⟩
    rw [List.mem_singleton.1 hb]
    exact hstarts a ha

theorem pushed (h : Gathers ms t) (more : List Mark) : Gathers (ms ++ more) (t.pushed more) := by
  induction more generalizing ms t with
  | nil => rwa [List.append_nil]
  | cons m more ih =>
    rw [List.append_cons]
    exact ih (h.attempt m)

theorem reach (h : Gathers ms t) : t.reach = (t.marks.toList.map Mark.stop).max?.getD 0 := by
  obtain ⟨⟨kept, rfl, -⟩, -⟩ := h
  show (kept.map Mark.stop).foldl max 0 = (kept.map Mark.stop).max?.getD 0
  cases kept.map Mark.stop with
  | nil => rfl
  | cons n ns => simp [List.max?]

theorem collect (h : Gathers ms t) (found : Array Mark) (start stop : Nat) :
    (t.collect found start stop).toList =
      found.toList ++ t.marks.toList.filter fun m => m.start < stop ∧ start < m.stop := by
  have hmono : FailsBehind (fun m : Mark => decide (m.start < stop)) t.marks := by
    intro i j a b hij ha hb hlt
    rcases Nat.lt_or_eq_of_le hij with hij | rfl
    · rw [← Array.getElem?_toList] at ha hb
      obtain ⟨hi, rfl⟩ := List.getElem?_eq_some_iff.1 ha
      obtain ⟨hj, rfl⟩ := List.getElem?_eq_some_iff.1 hb
      have := List.pairwise_iff_getElem.1 h.sorted i j hi hj hij
      simp only [decide_eq_true_eq] at hlt ⊢
      omega
    · rw [ha] at hb
      cases hb
      exact hlt
  have hcut := cutPoint_separates hmono (Nat.zero_le t.marks.size) (fun i x hi => absurd hi (Nat.not_lt_zero i))
    fun i x hi hx => absurd (Array.getElem?_eq_some_iff.1 hx).1 (by omega)
  rw [toList_collect, filter_take_of_separates hcut fun m hm => by simp_all [Mark.overlaps]]
  refine congrArg _ (List.filter_congr fun m _ => ?_)
  simp [Mark.overlaps]

end Gathers

/-- Whatever marks a track is pushed: it stores accepted ones in the order of arrival, refuses just those that
start in front of the last one it has stored, and is left as it is by these. A query for any two numbers adds to what
was found before the stored marks that start in front of the second and end behind the first, each once and in their
order, and the reach is the largest end that is stored. -/
theorem queries_of_pushed (ms : List Mark) :
    let t := empty.pushed ms
    t.marks.toList.Sublist ms ∧
      (∀ m, t.Refuses m → t.push m = .error .sampleOrder ∧ empty.pushed (ms ++ [m]) = t) ∧
      (∀ m, ¬ t.Refuses m → ∃ t', t.push m = .ok t' ∧ empty.pushed (ms ++ [m]) = t' ∧
        t'.marks.toList = t.marks.toList ++ [m]) ∧
      (∀ (found : Array Mark) (start stop : Nat), (t.collect found start stop).toList =
        found.toList ++ t.marks.toList.filter fun m => m.start < stop ∧ start < m.stop) ∧
      t.reach = (t.marks.toList.map Mark.stop).max?.getD 0 := by
  intro t
  have hgathers : Gathers ms t := Gathers.empty.pushed ms
  have hsnoc : ∀ m, empty.pushed (ms ++ [m]) = t.attempt m := fun m => List.foldl_append
  refine ⟨?_, fun m hrefuses => ?_, fun m hfree => ?_, hgathers.collect, hgathers.reach⟩
  · obtain ⟨⟨kept, hkept, hsub⟩, -⟩ := hgathers
    rwa [hkept]
  · rcases push_eq t m with ⟨-, hpush⟩ | ⟨hfree, -⟩
    · refine ⟨hpush, ?_⟩
      rw [hsnoc, attempt, hpush]
      rfl
    · exact absurd hrefuses hfree
  · rcases push_eq t m with ⟨hrefuses, -⟩ | ⟨-, hpush⟩
    · exact absurd hrefuses hfree
    · refine ⟨t.insert m, hpush, ?_, by simp [insert]⟩
      rw [hsnoc, attempt, hpush]
      rfl

end Track
end LogicDecode
