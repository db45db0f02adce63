import LogicDecode.Protocol.Basic

/-!
# Many calls of one decoder

`takeAll` makes one call of a decoder for each of some inputs and collects the findings. A refused
call ends it, so its result is the findings of all calls or the first refusal.
-/

namespace LogicDecode

section TakeAll
variable {σ α β : Type} {call : σ → α → Reply σ}

/-- Makes a call for one input after the other, until one is refused. -/
def takeAll (call : σ → α → Reply σ) (s : σ) : List α → Reply σ
  | [] => ⟨s, .ok []⟩
  | x :: xs =>
    let reply := call s x
    match reply.result with
    | .error e => ⟨reply.state, .error e⟩
    | .ok fs =>
      let rest := takeAll call reply.state xs
      ⟨rest.state, (fs ++ ·) <$> rest.result⟩

theorem takeAll_cons {s t : σ} {x : α} {xs : List α} {fs : List Finding}
    (h : call s x = ⟨t, .ok fs⟩) :
    takeAll call s (x :: xs) = ⟨(takeAll call t xs).state, (fs ++ ·) <$> (takeAll call t xs).result⟩ := by
  rw [takeAll, h]

theorem takeAll_singleton {s t : σ} {x : α} {fs : List Finding} (h : call s x = ⟨t, .ok fs⟩) :
    takeAll call s [x] = ⟨t, .ok fs⟩ := by
  rw [takeAll_cons h]
  exact congrArg (fun gs => (⟨t, .ok gs⟩ : Reply σ)) (List.append_nil fs)

theorem takeAll_append {s t u : σ} {xs ys : List α} {fs gs : List Finding}
    (hx : takeAll call s xs = ⟨t, .ok fs⟩) (hy : takeAll call t ys = ⟨u, .ok gs⟩) :
    takeAll call s (xs ++ ys) = ⟨u, .ok (fs ++ gs)⟩ := by
  induction xs generalizing s fs with
  | nil =>
    cases hx
    exact hy
  | cons x xs ih =>
    rcases hreply : call s x with ⟨s', result⟩
    cases result with
    | error e => rw [takeAll, hreply] at hx; cases hx
    | ok gs' =>
      rw [takeAll_cons hreply] at hx
      rcases hrest : takeAll call s' xs with ⟨t', rest⟩
      rw [hrest] at hx
      cases rest with
      | error e => cases hx
      | ok more =>
        obtain ⟨rfl, hfs⟩ := Reply.mk.inj hx
        cases hfs
        rw [List.cons_append, takeAll_cons hreply, ih hrest]
        exact congrArg (fun zs => (⟨u, .ok zs⟩ : Reply σ)) (List.append_assoc ..).symm

theorem takeAll_map (f : β → α) (s : σ) (xs : List β) :
    takeAll call s (xs.map f) = takeAll (fun s x => call s (f x)) s xs := by
  induction xs generalizing s with
  | nil => rfl
  | cons x xs ih =>
    rw [List.map_cons, takeAll, takeAll]
    simp only [ih]

end TakeAll

end LogicDecode
