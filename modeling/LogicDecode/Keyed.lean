/-!
# Keyed lists

A `Keyed α` is a list of values under text keys, in ascending order of the keys by code point and
with no key twice. `get?_insert` says what storing does to the view that `get?` gives.
-/

namespace LogicDecode

/-- Values under text keys, in ascending order of the keys. -/
abbrev Keyed (α : Type) := List (String × α)

namespace Keyed

variable {α : Type}

def get? (xs : Keyed α) (k : String) : Option α := xs.lookup k

def contains (xs : Keyed α) (k : String) : Bool := (xs.get? k).isSome

def keys (xs : Keyed α) : List String := xs.map Prod.fst

/-- Stores a value under a key, in the place of an earlier one. -/
def insert (k : String) (v : α) : Keyed α → Keyed α
  | [] => [(k, v)]
  | (k', v') :: rest =>
    if k = k' then (k, v) :: rest
    else if k < k' then (k, v) :: (k', v') :: rest
    else (k', v') :: insert k v rest

def erase (xs : Keyed α) (k : String) : Keyed α := xs.filter fun p => p.1 != k

/-- Stores pairs one after the other, so the last one of a key stays. -/
def insertAll (xs : Keyed α) (ps : List (String × α)) : Keyed α :=
  ps.foldl (fun acc p => insert p.1 p.2 acc) xs

theorem get?_cons (a k : String) (b : α) (xs : Keyed α) :
    get? ((a, b) :: xs) k = if k = a then some b else get? xs k := by
  simp only [get?, List.lookup_cons]
  by_cases h : k = a
  · simp [h]
  · have hne : (k == a) = false := by simpa using h
    simp [h, hne]

theorem get?_insert (k k' : String) (v : α) (xs : Keyed α) :
    get? (insert k v xs) k' = if k' = k then some v else get? xs k' := by
  induction xs with
  | nil => simp [insert, get?_cons]
  | cons p rest ih =>
    obtain ⟨a, b⟩ := p
    unfold insert
    split
    · grind [get?_cons]
    · split
      · grind [get?_cons]
      · grind [get?_cons]

theorem get?_erase (xs : Keyed α) (k k' : String) :
    get? (erase xs k) k' = if k' = k then none else get? xs k' := by
  induction xs with
  | nil => simp [get?, erase]
  | cons p rest ih =>
    obtain ⟨a, b⟩ := p
    simp only [erase, List.filter_cons] at ih ⊢
    by_cases h : a = k
    · simp only [h, get?_cons]; simp [ih]; grind
    · simp only [bne_iff_ne, ne_eq, h, not_false_eq_true, if_true, get?_cons]; grind

end Keyed

end LogicDecode
