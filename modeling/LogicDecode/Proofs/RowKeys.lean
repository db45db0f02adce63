import LogicDecode.RowTable

/-!
# The rows of a table

A table lists no row twice, and every class of a decoder in the chain has a row that it lists, be it only
the decoder's default row. `Enters` is what keeps this true while rows are entered.
-/

namespace LogicDecode
namespace RowTable

/-- The keys of the rows that a table lists. -/
def keys (t : RowTable) : List RowKey := t.rows.map Row.key

/-- What a table is like to which rows have been added one by one. -/
structure Enters (t : RowTable) : Prop where
  distinct : t.keys.Nodup
  classes : ∀ p ∈ t.classes, p.2.key ∈ t.keys
  defaults : ∀ p ∈ t.defaults, p.2.key ∈ t.keys
  /-- A default row is listed only if it was entered as one. -/
  listed : ∀ d, ⟨d, none⟩ ∈ t.keys → (t.defaults.lookup d).isSome

theorem mem_of_lookup {κ α : Type} [BEq κ] [LawfulBEq κ] {k : κ} {a : α} {xs : List (κ × α)}
    (h : xs.lookup k = some a) : (k, a) ∈ xs := by
  obtain ⟨l₁, l₂, rfl, -⟩ := List.lookup_eq_some_iff.1 h
  simp

theorem contains_iff (rows : List Row) (r : Row) : rows.contains r = true ↔ r.key ∈ rows.map Row.key := by
  induction rows with
  | nil => simp
  | cons x rows ih =>
    have hbeq : (r == x) = (r.key == x.key) := rfl
    simp only [List.contains_cons, Bool.or_eq_true, List.map_cons, List.mem_cons, ih, hbeq, beq_iff_eq]

namespace Enters
variable {t : RowTable}

theorem empty : Enters .empty := by
  constructor <;> simp [RowTable.empty, keys]

theorem addRow (h : Enters t) {r : Row} (hr : r.index ≠ none) : Enters (t.addRow r) := by
  have hkeys : (t.addRow r).keys = if r.key ∈ t.keys then t.keys else t.keys ++ [r.key] := by
    show List.map Row.key (if t.rows.contains r then t.rows else t.rows ++ [r]) = _
    by_cases hmem : r.key ∈ t.keys
    · rw [if_pos ((contains_iff t.rows r).2 hmem), if_pos hmem]
      rfl
    · rw [if_neg fun hc => hmem ((contains_iff t.rows r).1 hc), if_neg hmem, List.map_append]
      rfl
  have hmem : ∀ k, k ∈ (t.addRow r).keys ↔ k ∈ t.keys ∨ k = r.key := by
    intro k
    rw [hkeys]
    split
    · exact ⟨.inl, fun hk => hk.elim id fun hk => by rwa [hk]⟩
    · simp
  refine ⟨?_, fun p hp => ?_, fun p hp => ?_, fun d hd => ?_⟩
  · rw [hkeys]
    split
    · exact h.distinct
    · rename_i hnew
      exact List.nodup_append.2 ⟨h.distinct, by simp, by rintro a ha b hb rfl; simp_all⟩
  · rcases List.mem_append.1 hp with hp | hp
    · exact (hmem _).2 (.inl (h.classes p hp))
    · cases hspec : r.spec? with
      | none => simp [hspec] at hp
      | some spec =>
        obtain ⟨c, -, rfl⟩ : ∃ c ∈ spec.classes, ((r.profile.id, c), r) = p := by simpa [hspec] using hp
        exact (hmem _).2 (.inr rfl)
  · exact (hmem _).2 (.inl (h.defaults p hp))
  · rcases (hmem _).1 hd with hd | hd
    · exact h.listed d hd
    · exact absurd (congrArg RowKey.index hd).symm hr

theorem addDefault (h : Enters t) (p : Profile) : Enters (t.addDefault p) := by
  unfold RowTable.addDefault
  split
  · exact h
  · rename_i hnone
    rw [Bool.not_eq_true, Option.isSome_eq_false_iff, Option.isNone_iff_eq_none] at hnone
    have hkeys : ∀ k, k ∈ (t.rows ++ [Row.ofProfile p]).map Row.key ↔ k ∈ t.keys ∨ k = ⟨p.id, none⟩ := by
      intro k
      simp [keys, Row.key, Row.ofProfile]
    refine ⟨?_, fun q hq => ?_, fun q hq => ?_, fun d hd => ?_⟩
    · show ((t.rows ++ [Row.ofProfile p]).map Row.key).Nodup
      rw [List.map_append]
      refine List.nodup_append.2 ⟨h.distinct, by simp, ?_⟩
      rintro a ha b hb rfl
      rw [List.mem_singleton.1 hb] at ha
      have := h.listed p.id ha
      simp [hnone] at this
    · exact (hkeys _).2 (.inl (h.classes q hq))
    · rcases List.mem_append.1 hq with hq | hq
      · exact (hkeys _).2 (.inl (h.defaults q hq))
      · rw [List.mem_singleton.1 hq]
        exact (hkeys _).2 (.inr rfl)
    · show (List.lookup d (t.defaults ++ [(p.id, Row.ofProfile p)])).isSome = true
      rw [List.lookup_append]
      rcases (hkeys _).1 hd with hd | hd
      · simp [h.listed d hd]
      · cases hd
        simp

theorem add (h : Enters t) (p : Profile) : Enters (t.add p) := by
  have hrows : ∀ rows : List Row, (∀ r ∈ rows, r.index ≠ none) → ∀ t : RowTable, Enters t →
      Enters (rows.foldl RowTable.addRow t) := by
    intro rows
    induction rows with
    | nil => exact fun _ _ h => h
    | cons r rows ih =>
      intro hr t h
      exact ih (fun r' hr' => hr r' (List.mem_cons_of_mem _ hr')) _ (h.addRow (hr r (List.mem_cons_self ..)))
  refine (hrows _ (fun r hr => ?_) t h).addDefault p
  obtain ⟨i, -, rfl⟩ := List.mem_map.1 hr
  simp

theorem ofProfiles (ps : List Profile) : Enters (.ofProfiles ps) := by
  have hall : ∀ t : RowTable, Enters t → Enters (ps.foldl RowTable.add t) := by
    induction ps with
    | nil => exact fun _ h => h
    | cons p ps ih => exact fun t h => ih _ (h.add p)
  exact hall _ .empty

/-- A row that has a class is listed. -/
theorem mem_keys (h : Enters t) {d : String} {c : Nat} {r : Row} {routing : Routing}
    (hc : t.classify d c = some (r, routing)) : r.key ∈ t.keys := by
  unfold classify at hc
  split at hc
  · rename_i hlookup
    cases hc
    exact h.classes _ (mem_of_lookup hlookup)
  · obtain ⟨r', hr', heq⟩ := Option.map_eq_some_iff.1 hc
    cases heq
    exact h.defaults _ (mem_of_lookup hr')

end Enters

theorem defaults_addRows (rows : List Row) (t : RowTable) : (rows.foldl addRow t).defaults = t.defaults := by
  induction rows generalizing t with
  | nil => rfl
  | cons r rows ih => exact ih _

theorem isSome_defaults_add {t : RowTable} {p : Profile} {d : String}
    (h : (t.defaults.lookup d).isSome ∨ p.id = d) : ((t.add p).defaults.lookup d).isSome := by
  have hrows := defaults_addRows p.declaredRows t
  unfold add addDefault
  rw [hrows]
  split
  · rename_i hp
    rcases h with h | rfl
    · rwa [hrows]
    · rwa [hrows]
  · rw [List.lookup_append]
    rcases h with h | rfl
    · simp [h]
    · simp

/-- The classes of a decoder of the chain have a row. -/
theorem isSome_classify {ps : List Profile} {d : String} (h : ∃ p ∈ ps, p.id = d) (c : Nat) :
    ((ofProfiles ps).classify d c).isSome := by
  have hall : ∀ (ps : List Profile) (t : RowTable), ((t.defaults.lookup d).isSome ∨ ∃ p ∈ ps, p.id = d) →
      ((ps.foldl add t).defaults.lookup d).isSome := by
    intro ps
    induction ps with
    | nil => simp
    | cons p ps ih =>
      intro t h
      refine ih _ ?_
      rcases h with h | ⟨q, hq, hid⟩
      · exact .inl (isSome_defaults_add (.inl h))
      · rcases List.mem_cons.1 hq with rfl | hq
        · exact .inl (isSome_defaults_add (.inr hid))
        · exact .inr ⟨q, hq, hid⟩
  have hdefault := hall ps .empty (.inr h)
  unfold classify
  split
  · rfl
  · rw [Option.isSome_map]
    exact hdefault

end RowTable
end LogicDecode
