import LogicDecode.Delivery
import Mathlib.Data.List.Nodup
import Mathlib.Data.List.Perm.Subperm

/-!
# Levels of stacked instances

The level of an instance is the number of steps down to one that takes samples. It is less than the
number of instances (`Level.lt`), so a delivery that counts down from there reaches all that hangs on
an instance; what hangs on no such instance has no level, and no delivery reaches it.
-/

namespace LogicDecode

/-- `Level lowers i d`: it is `d` steps down from `i` to an instance that has no lower one. -/
inductive Level (lowers : List (Option Nat)) : Nat → Nat → Prop
  | root {i : Nat} (h : lowers[i]? = some none) : Level lowers i 0
  | upper {u l d : Nat} (h : lowers[u]? = some (some l)) (hl : Level lowers l d) : Level lowers u (d + 1)

namespace Level
variable {lowers : List (Option Nat)} {i j l u d d' : Nat}

theorem unique (h : Level lowers i d) (h' : Level lowers i d') : d = d' := by
  induction h generalizing d' with
  | root h =>
    cases h' with
    | root => rfl
    | upper h' => rw [h] at h'; cases h'
  | upper h _ ih =>
    cases h' with
    | root h' => rw [h] at h'; cases h'
    | upper h' hl =>
      rw [h] at h'
      cases h'
      rw [ih hl]

theorem ne (h : Level lowers i d) (h' : Level lowers j d') (hd : d ≠ d') : i ≠ j := by
  rintro rfl
  exact hd (h.unique h')

theorem ne_lower (h : Level lowers l d) (hu : lowers[u]? = some (some l)) : u ≠ l :=
  ne (.upper hu h) h (Nat.succ_ne_self d)

/-- The instances on the way down from an instance, which it begins with. -/
theorem exists_way (h : Level lowers i d) :
    ∃ way : List Nat, way.length = d + 1 ∧ way.Nodup ∧
      ∀ j ∈ way, j < lowers.length ∧ ∃ k, k ≤ d ∧ Level lowers j k := by
  induction h with
  | @root i h =>
    obtain ⟨hlt, -⟩ := List.getElem?_eq_some_iff.1 h
    refine ⟨[i], rfl, List.nodup_singleton i, fun j hj => ?_⟩
    rw [List.mem_singleton.1 hj]
    exact ⟨hlt, 0, Nat.le_refl _, .root h⟩
  | @upper u l d h hl ih =>
    obtain ⟨way, hlen, hnodup, hway⟩ := ih
    obtain ⟨hlt, -⟩ := List.getElem?_eq_some_iff.1 h
    refine ⟨u :: way, congrArg (· + 1) hlen, List.nodup_cons.2 ⟨fun hmem => ?_, hnodup⟩, fun j hj => ?_⟩
    · obtain ⟨-, k, hk, hlevel⟩ := hway u hmem
      have := hlevel.unique (.upper h hl)
      omega
    · rcases List.mem_cons.1 hj with rfl | hj
      · exact ⟨hlt, d + 1, Nat.le_refl _, .upper h hl⟩
      · obtain ⟨hlt', k, hk, hlevel⟩ := hway j hj
        exact ⟨hlt', k, by omega, hlevel⟩

theorem lt (h : Level lowers i d) : d < lowers.length := by
  obtain ⟨way, hlen, hnodup, hway⟩ := h.exists_way
  have hsub : way ⊆ List.range lowers.length := fun j hj => List.mem_range.2 (hway j hj).1
  have hle := (List.subperm_of_subset hnodup hsub).length_le
  rw [hlen, List.length_range] at hle
  exact hle

end Level

section Lowers
variable {σ : Type}

/-- What each instance sits on. -/
def lowersOf (xs : List (Instance σ)) : List (Option Nat) := xs.map Instance.lower

theorem exists_instance {xs : List (Instance σ)} {i : Nat} {o : Option Nat} (h : (lowersOf xs)[i]? = some o) :
    ∃ x, xs[i]? = some x ∧ x.lower = o := by
  rw [lowersOf, List.getElem?_map] at h
  exact Option.map_eq_some_iff.1 h

theorem lowersOf_set {xs : List (Instance σ)} {i : Nat} {x : Instance σ} (h : xs[i]? = some x) (s : σ) :
    lowersOf (xs.set i { x with state := s }) = lowersOf xs := by
  obtain ⟨hlt, -⟩ := List.getElem?_eq_some_iff.1 h
  refine List.ext_getElem? fun j => ?_
  rw [lowersOf, lowersOf, List.getElem?_map, List.getElem?_map]
  by_cases hij : i = j
  · subst hij
    rw [List.getElem?_set_self hlt, h]; rfl
  · rw [List.getElem?_set_ne hij]

end Lowers

namespace Flow
variable {σ : Type} (f : Flow σ)

theorem mem_numbers {p : Option Nat → Bool} {i : Nat} :
    i ∈ f.numbers p ↔ ∃ o, (lowersOf f.instances)[i]? = some o ∧ p o = true := by
  rw [numbers, List.mem_filter, List.mem_range, lowersOf, List.getElem?_map]
  constructor
  · rintro ⟨hlt, h⟩
    rw [List.getElem?_eq_getElem hlt] at h ⊢
    exact ⟨_, rfl, h⟩
  · rintro ⟨o, h, hp⟩
    obtain ⟨x, hx, rfl⟩ := Option.map_eq_some_iff.1 h
    rw [hx]
    exact ⟨(List.getElem?_eq_some_iff.1 hx).1, hp⟩

theorem mem_uppers {l u : Nat} : u ∈ f.uppers l ↔ (lowersOf f.instances)[u]? = some (some l) := by
  rw [uppers, mem_numbers]
  constructor
  · rintro ⟨o, h, ho⟩
    rw [h, beq_iff_eq.1 ho]
  · exact fun h => ⟨_, h, beq_self_eq_true _⟩

theorem mem_roots {i : Nat} : i ∈ f.roots ↔ (lowersOf f.instances)[i]? = some none := by
  rw [roots, mem_numbers]
  constructor
  · rintro ⟨o, h, ho⟩
    rw [h, Option.isNone_iff_eq_none.1 ho]
  · exact fun h => ⟨_, h, rfl⟩

theorem nodup_numbers (p : Option Nat → Bool) : (f.numbers p).Nodup :=
  List.nodup_range.filter _

end Flow

end LogicDecode
