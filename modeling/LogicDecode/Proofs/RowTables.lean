import Mathlib.Data.List.Induction
import LogicDecode.Proofs.RowKeys

/-!
# What a row table holds

The table of a chain of decoders is made profile by profile, and `Tables` says what it holds at any time: the
classes of all declared rows in the order of the chain, the default row of the first profile of each id, and the rows
that the profiles bring along (`Profile.ownRows`), of equal ones the first. Rows are equal if their keys are, so a
profile that comes again under its id brings only rows that the earlier ones do not have. What a look-up
finds follows (`RowTable.classify_rows_ofProfiles`).
-/

namespace LogicDecode

theorem eraseDups_snoc {α : Type} [BEq α] (xs : List α) (a : α) :
    (xs ++ [a]).eraseDups = if xs.eraseDups.contains a then xs.eraseDups else xs.eraseDups ++ [a] := by
  have hloop : ∀ xs bs : List α, List.eraseDupsBy.loop (· == ·) (xs ++ [a]) bs =
      if (List.eraseDupsBy.loop (· == ·) xs bs).any (a == ·) then List.eraseDupsBy.loop (· == ·) xs bs
      else List.eraseDupsBy.loop (· == ·) xs bs ++ [a] := by
    intro xs
    induction xs with
    | nil =>
      intro bs
      simp only [List.nil_append, List.eraseDupsBy.loop, List.any_reverse]
      split
      · rename_i ha
        rw [if_pos ha]
      · rename_i ha
        rw [if_neg (by simp [ha]), List.reverse_cons]
    | cons x xs ih =>
      intro bs
      rcases hx : bs.any (x == ·) with _ | _
      · simp only [List.cons_append, List.eraseDupsBy.loop, hx]
        exact ih (x :: bs)
      · simp only [List.cons_append, List.eraseDupsBy.loop, hx]
        exact ih bs
  rw [List.contains_eq_any_beq]
  exact hloop xs []

/-- The rows of a profile, the default row behind the others. -/
def Profile.ownRows (p : Profile) : List Row := p.declaredRows ++ [Row.ofProfile p]

/-- A declared row shows a class. -/
def Row.lists (r : Row) (c : Nat) : Bool := r.spec?.any fun s => s.classes.contains c

/-- The entries of a row in the table of classes. -/
def Row.entries (r : Row) : List ((String × Nat) × Row) :=
  match r.spec? with
  | some spec => spec.classes.map fun c => ((r.profile.id, c), r)
  | none => []

/-- The rows that a class of a decoder comes to are declared ones if it is mapped, and else the default row. -/
def Routing.LeadsTo (d : String) : Routing → RowKey → Prop
  | .mapped, k => ∃ i, k = ⟨d, some i⟩
  | .fallback, k => k = ⟨d, none⟩

namespace RowTable

theorem key_mem_eraseDups {rows : List Row} {k : RowKey} :
    k ∈ rows.eraseDups.map Row.key ↔ k ∈ rows.map Row.key := by
  induction rows using List.reverseRecOn with
  | nil => rfl
  | append_singleton rows r ih =>
    rw [eraseDups_snoc, List.map_append, List.mem_append, ← ih]
    split
    · rename_i hr
      rw [contains_iff] at hr
      constructor
      · exact .inl
      · rintro (hk | hk)
        · exact hk
        · rw [List.map_singleton, List.mem_singleton] at hk
          rwa [hk]
    · rw [List.map_append, List.mem_append]

theorem lookup_entries (r : Row) (d : String) (c : Nat) :
    r.entries.lookup (d, c) = if r.profile.id == d && r.lists c then some r else none := by
  have hall : ∀ cs : List Nat, (cs.map fun c => ((r.profile.id, c), r)).lookup (d, c) =
      if r.profile.id == d && cs.contains c then some r else none := by
    intro cs
    induction cs with
    | nil => simp
    | cons c' cs ih =>
      have hkey : ((d, c) == (r.profile.id, c')) = (d == r.profile.id && c == c') := rfl
      rw [List.map_cons, List.lookup_cons, ih, hkey]
      by_cases hd : r.profile.id = d
      · by_cases hc : c = c'
        · simp [hd, hc]
        · simp [hd, hc, beq_eq_false_iff_ne.2 hc]
      · simp [hd, beq_eq_false_iff_ne.2 (Ne.symm hd)]
  unfold Row.entries Row.lists
  cases r.spec? with
  | none => simp
  | some spec => exact hall spec.classes

theorem lookup_flatMap_entries (rows : List Row) (d : String) (c : Nat) :
    (rows.flatMap Row.entries).lookup (d, c) = rows.find? fun r => r.profile.id == d && r.lists c := by
  induction rows with
  | nil => rfl
  | cons r rows ih =>
    rw [List.flatMap_cons, List.lookup_append, lookup_entries, ih, List.find?_cons]
    cases r.profile.id == d && r.lists c <;> rfl

/-- What the table of some profiles holds. -/
structure Tables (ps : List Profile) (t : RowTable) : Prop where
  classes : t.classes = (ps.flatMap Profile.declaredRows).flatMap Row.entries
  defaults : ∀ d, t.defaults.lookup d = (ps.find? fun p => p.id == d).map Row.ofProfile
  rows : t.rows = (ps.flatMap Profile.ownRows).eraseDups

theorem addRows (t : RowTable) (rows : List Row) {own : List Row} (h : t.rows = own.eraseDups) :
    (rows.foldl addRow t).classes = t.classes ++ rows.flatMap Row.entries ∧
      (rows.foldl addRow t).rows = (own ++ rows).eraseDups := by
  induction rows generalizing t own with
  | nil => simp [h]
  | cons r rows ih =>
    have hr : (t.addRow r).rows = (own ++ [r]).eraseDups := by
      rw [eraseDups_snoc, ← h]
      rfl
    obtain ⟨hclasses, hrows⟩ := ih _ hr
    rw [List.foldl_cons, hclasses, hrows, List.flatMap_cons, List.append_cons own r rows]
    refine ⟨?_, rfl⟩
    rw [← List.append_assoc]
    rfl

namespace Tables
variable {ps : List Profile} {t : RowTable}

theorem empty : Tables [] .empty := ⟨rfl, fun _ => rfl, rfl⟩

/-- The default row of an id is among the rows that the profiles bring along just if one of them has the id. -/
theorem default_mem_iff (ps : List Profile) (p : Profile) :
    (Row.ofProfile p).key ∈ (ps.flatMap Profile.ownRows ++ p.declaredRows).map Row.key ↔ ∃ q ∈ ps, q.id = p.id := by
  have hdeclared : ∀ q : Profile, (⟨p.id, none⟩ : RowKey) ∉ q.declaredRows.map Row.key := by
    intro q hq
    simp [Profile.declaredRows, Row.key] at hq
  show (⟨p.id, none⟩ : RowKey) ∈ _ ↔ _
  rw [List.map_append, List.mem_append, List.map_flatMap, List.mem_flatMap]
  constructor
  · rintro (⟨q, hq, hk⟩ | hk)
    · rw [Profile.ownRows, List.map_append, List.mem_append] at hk
      rcases hk with hk | hk
      · exact absurd hk (hdeclared q)
      · rw [List.map_singleton, List.mem_singleton] at hk
        exact ⟨q, hq, congrArg RowKey.decoder hk.symm⟩
    · exact absurd hk (hdeclared p)
  · rintro ⟨q, hq, hid⟩
    refine .inl ⟨q, hq, ?_⟩
    simp [Profile.ownRows, Row.ofProfile, Row.key, hid]

theorem add (h : Tables ps t) (p : Profile) : Tables (ps ++ [p]) (t.add p) := by
  obtain ⟨hclasses, hrows⟩ := addRows t p.declaredRows h.rows
  have hdefaults : (p.declaredRows.foldl addRow t).defaults = t.defaults := defaults_addRows p.declaredRows t
  have hhas : (t.defaults.lookup p.id).isSome ↔ ∃ q ∈ ps, q.id = p.id := by
    rw [h.defaults, Option.isSome_map, List.find?_isSome]
    simp
  have hclasses' : t.classes ++ p.declaredRows.flatMap Row.entries =
      ((ps ++ [p]).flatMap Profile.declaredRows).flatMap Row.entries := by
    simp [h.classes]
  have hown : (ps ++ [p]).flatMap Profile.ownRows =
      (ps.flatMap Profile.ownRows ++ p.declaredRows) ++ [Row.ofProfile p] := by
    simp [Profile.ownRows]
  have hlisted : (ps.flatMap Profile.ownRows ++ p.declaredRows).eraseDups.contains (Row.ofProfile p) ↔
      ∃ q ∈ ps, q.id = p.id := by
    rw [contains_iff, key_mem_eraseDups, default_mem_iff]
  unfold RowTable.add addDefault
  rw [hdefaults]
  split
  · rename_i hsome
    have hold := hhas.1 hsome
    refine ⟨?_, fun d => ?_, ?_⟩
    · rw [hclasses, hclasses']
    · rw [hdefaults, h.defaults, List.find?_append]
      by_cases hd : p.id = d
      · subst hd
        have hfound : (ps.find? fun q => q.id == p.id).isSome := by simpa using hold
        rw [Option.or_of_isSome hfound]
      · simp [hd]
    · rw [hrows, hown, eraseDups_snoc, if_pos (hlisted.2 hold)]
  · rename_i hnone
    refine ⟨?_, fun d => ?_, ?_⟩
    · show (p.declaredRows.foldl addRow t).classes = _
      rw [hclasses, hclasses']
    · show (t.defaults ++ [(p.id, Row.ofProfile p)]).lookup d = _
      rw [List.lookup_append, h.defaults, List.find?_append, Option.map_or]
      congr 1
      by_cases hd : p.id = d
      · simp [hd]
      · simp [hd, Ne.symm hd]
    · show (p.declaredRows.foldl addRow t).rows ++ [Row.ofProfile p] = _
      rw [hrows, hown, eraseDups_snoc, if_neg fun hc => hnone (hhas.2 (hlisted.1 hc))]

theorem ofProfiles (ps : List Profile) : Tables ps (.ofProfiles ps) := by
  induction ps using List.reverseRecOn with
  | nil => exact empty
  | append_singleton ps p ih =>
    rw [RowTable.ofProfiles, List.foldl_append]
    exact ih.add p

theorem classify (h : Tables ps t) (d : String) (c : Nat) : t.classify d c =
    match (ps.flatMap Profile.declaredRows).find? fun r => r.profile.id == d && r.lists c with
    | some r => some (r, .mapped)
    | none => (ps.find? fun p => p.id == d).map fun p => (Row.ofProfile p, .fallback) := by
  rw [RowTable.classify, h.classes, lookup_flatMap_entries, h.defaults, Option.map_map]
  rfl

theorem of_mem_declaredRows {r : Row} (h : r ∈ ps.flatMap Profile.declaredRows) :
    r.profile ∈ ps ∧ ∃ i, r.index = some i := by
  obtain ⟨p, hp, hr⟩ := List.mem_flatMap.1 h
  obtain ⟨i, -, rfl⟩ := List.mem_map.1 hr
  exact ⟨hp, i, rfl⟩

theorem classify_eq_none (h : Tables ps t) {d : String} (hno : ∀ p ∈ ps, p.id ≠ d) (c : Nat) :
    t.classify d c = none := by
  have hrow : (ps.flatMap Profile.declaredRows).find? (fun r => r.profile.id == d && r.lists c) = none := by
    rw [List.find?_eq_none]
    intro r hr hrd
    exact hno r.profile (of_mem_declaredRows hr).1 (beq_iff_eq.1 (Bool.and_eq_true_iff.1 hrd).1)
  have hdefault : (ps.find? fun p => p.id == d) = none := by
    rw [List.find?_eq_none]
    intro p hp hpd
    exact hno p hp (beq_iff_eq.1 hpd)
  rw [h.classify, hrow, hdefault]
  rfl

/-- The key of a row tells how a class came to it. -/
theorem key_of_classify (h : Tables ps t) {d : String} {c : Nat} {r : Row} {routing : Routing}
    (hc : t.classify d c = some (r, routing)) : routing.LeadsTo d r.key := by
  rw [h.classify] at hc
  split at hc
  · rename_i hfind
    cases hc
    obtain ⟨-, i, hi⟩ := of_mem_declaredRows (List.mem_of_find?_eq_some hfind)
    obtain ⟨hid, -⟩ : r.profile.id = d ∧ r.lists c := by simpa using List.find?_some hfind
    exact ⟨i, congrArg₂ RowKey.mk hid hi⟩
  · obtain ⟨p, hp, heq⟩ := Option.map_eq_some_iff.1 hc
    cases heq
    have hid : p.id = d := by simpa using List.find?_some hp
    exact congrArg (RowKey.mk · none) hid

end Tables

theorem isEmpty_ofProfiles (ps : List Profile) : (ofProfiles ps).isEmpty ↔ ps = [] := by
  constructor
  · intro hempty
    cases ps with
    | nil => rfl
    | cons p ps =>
      -- a chain with a profile has a row for any class of it
      obtain ⟨⟨r, routing⟩, hr⟩ := Option.isSome_iff_exists.1 (isSome_classify ⟨p, List.mem_cons_self, rfl⟩ 0)
      have hmem := (Enters.ofProfiles (p :: ps)).mem_keys hr
      rw [keys, List.isEmpty_iff.1 hempty] at hmem
      exact absurd hmem List.not_mem_nil
  · rintro rfl
    rfl

/-- For a class of a decoder `classify` finds, in the order of the chain, the first declared row of that decoder with
the class, else its default row, and nothing just if no profile of the chain has the id. The rows are those that the
profiles bring along, each where it comes first. -/
theorem classify_rows_ofProfiles (ps : List Profile) :
    (∀ d c, (ofProfiles ps).classify d c =
      match (ps.flatMap Profile.declaredRows).find? fun r => r.profile.id == d && r.lists c with
      | some r => some (r, .mapped)
      | none => (ps.find? fun p => p.id == d).map fun p => (Row.ofProfile p, .fallback)) ∧
    (∀ d c, (ofProfiles ps).classify d c = none ↔ ∀ p ∈ ps, p.id ≠ d) ∧
    (∀ d c r routing, (ofProfiles ps).classify d c = some (r, routing) →
      (ofProfiles ps).rows.contains r ∧ routing.LeadsTo d r.key) ∧
    (ofProfiles ps).rows = (ps.flatMap Profile.ownRows).eraseDups ∧
    (ofProfiles ps).keys.Nodup ∧
    ((ofProfiles ps).isEmpty ↔ ps = []) := by
  have htables := Tables.ofProfiles ps
  have henters := Enters.ofProfiles ps
  refine ⟨htables.classify, fun d c => ⟨?_, fun hno => htables.classify_eq_none hno c⟩, fun d c r routing hc => ?_,
    htables.rows, henters.distinct, isEmpty_ofProfiles ps⟩
  · intro hnone p hp hid
    have hsome := isSome_classify ⟨p, hp, hid⟩ c
    rw [hnone] at hsome
    exact absurd hsome (by decide)
  · exact ⟨(contains_iff _ r).2 (henters.mem_keys hc), htables.key_of_classify hc⟩

/-- A decoder that comes twice, with other rows the second time: its first default row stands between them. -/
example :
    let p : Profile := ⟨"d", "", "", [], [], [], [⟨"a", "", [0, 1]⟩]⟩
    let q : Profile := { p with rows := [⟨"b", "", [1]⟩, ⟨"c", "", [1, 2]⟩] }
    (ofProfiles [p, q]).keys = [⟨"d", some 0⟩, ⟨"d", none⟩, ⟨"d", some 1⟩] ∧
      ((ofProfiles [p, q]).classify "d" 2).map (fun x => (x.1.key, x.2)) = some (⟨"d", some 1⟩, .mapped) := by
  decide +kernel

end RowTable
end LogicDecode
