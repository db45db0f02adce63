import LogicDecode.Broadcast

/-!
# Subscriptions that come and go

Whatever is done to a broadcast, those who are present in it are those who have subscribed and not left, in the
order in which they came, and in the inbox of each are the events sent since they came (`Reflects`). One use of the
broadcast keeps this, so it holds after any uses (`inboxes_of_uses`): others who come, leave or are dropped make
no difference.
-/

namespace LogicDecode
namespace Broadcast

/-- What is done to a broadcast. -/
inductive Use where
  | subscribe
  | leave (number : Nat)
  | send (e : Event)
deriving Repr, DecidableEq

def use (b : Broadcast) : Use → Broadcast
  | .subscribe => b.subscribe.1
  | .leave number => b.leave number
  | .send e => b.send e

def useAll (b : Broadcast) (us : List Use) : Broadcast := us.foldl use b

def subscriptions (us : List Use) : Nat := us.count .subscribe

/-- What is done after a subscription, given by its number. -/
def since : Nat → List Use → List Use
  | _, [] => []
  | 0, .subscribe :: us => us
  | k + 1, .subscribe :: us => since k us
  | k, _ :: us => since k us

/-- The events sent, in order. -/
def sentIn (us : List Use) : List Event :=
  us.filterMap fun
    | .send e => some e
    | _ => none

/-- The subscribers who have not left since they came. -/
def staying (us : List Use) : List Nat :=
  (List.range (subscriptions us)).filter fun k => .leave k ∉ since k us

section Uses
variable {us vs : List Use} {u : Use} {k : Nat}

theorem since_append (h : k < subscriptions us) : since k (us ++ vs) = since k us ++ vs := by
  induction us generalizing k with
  | nil => simp [subscriptions] at h
  | cons u us ih =>
    cases u with
    | subscribe =>
      cases k with
      | zero => rfl
      | succ k => exact ih (by simpa [subscriptions] using h)
    | leave number => simpa [since] using ih (by simpa [subscriptions] using h)
    | send e => simpa [since] using ih (by simpa [subscriptions] using h)

theorem since_last : since (subscriptions us) (us ++ [.subscribe]) = [] := by
  induction us with
  | nil => rfl
  | cons u us ih => cases u <;> simpa [since, subscriptions] using ih

theorem lt_of_mem_staying (h : k ∈ staying us) : k < subscriptions us :=
  List.mem_range.1 (List.mem_filter.1 h).1

theorem staying_subscribe : staying (us ++ [.subscribe]) = staying us ++ [subscriptions us] := by
  have hcount : subscriptions (us ++ [.subscribe]) = subscriptions us + 1 := by simp [subscriptions]
  rw [staying, hcount, List.range_succ, List.filter_append]
  congr 1
  · refine List.filter_congr fun k hk => ?_
    rw [since_append (List.mem_range.1 hk)]
    simp
  · simp [since_last]

theorem staying_snoc (h : u ≠ .subscribe) :
    staying (us ++ [u]) = (staying us).filter fun k => u ≠ .leave k := by
  have hcount : subscriptions (us ++ [u]) = subscriptions us := by simp [subscriptions, h]
  rw [staying, hcount, staying, List.filter_filter]
  refine List.filter_congr fun k hk => ?_
  rw [since_append (List.mem_range.1 hk)]
  simp [and_comm, eq_comm]

end Uses

/-- Those who are present are those who stay, with what was sent since they came. -/
structure Reflects (us : List Use) (b : Broadcast) : Prop where
  issued : b.issued = subscriptions us
  present : b.subscribers.filter (·.present) =
    (staying us).map fun k => ⟨k, true, (sentIn (since k us)).toArray⟩

namespace Reflects
variable {us : List Use} {b : Broadcast}

theorem empty : Reflects [] .empty := ⟨rfl, rfl⟩

theorem subscribe (h : Reflects us b) : Reflects (us ++ [.subscribe]) b.subscribe.1 := by
  refine ⟨by simp [Broadcast.subscribe, h.issued, subscriptions], ?_⟩
  have hold : ∀ k ∈ staying us, sentIn (since k (us ++ [.subscribe])) = sentIn (since k us) := by
    intro k hk
    simp [since_append (lt_of_mem_staying hk), sentIn]
  simp only [Broadcast.subscribe, List.filter_append, h.present, staying_subscribe, List.map_append]
  congr 1
  · exact List.map_congr_left fun k hk => by rw [hold k hk]
  · simp [since_last, h.issued, sentIn]

theorem leave (h : Reflects us b) (number : Nat) : Reflects (us ++ [.leave number]) (b.leave number) := by
  refine ⟨by simp [Broadcast.leave, h.issued, subscriptions], ?_⟩
  -- the one who leaves is no longer present, the others are as they were
  have hothers : ∀ xs : List Subscriber,
      (xs.map fun s => if s.number = number then { s with present := false } else s).filter (·.present) =
        (xs.filter (·.present)).filter fun s => s.number ≠ number := by
    intro xs
    induction xs with
    | nil => rfl
    | cons s xs ih =>
      by_cases hs : s.number = number <;> by_cases hp : s.present = true <;> simp_all
  rw [Broadcast.leave, hothers, h.present, staying_snoc (by simp), List.filter_map]
  have hkeep : (staying us).filter ((fun s : Subscriber => decide (s.number ≠ number)) ∘
      fun k => ⟨k, true, (sentIn (since k us)).toArray⟩) = (staying us).filter fun k => Use.leave number ≠ .leave k :=
    List.filter_congr fun k _ => by simp [eq_comm]
  rw [hkeep]
  refine List.map_congr_left fun k hk => ?_
  simp [since_append (lt_of_mem_staying (List.mem_filter.1 hk).1), sentIn]

/-- All who are present get the event, and nobody else is left. -/
theorem subscribers_send (h : Reflects us b) (e : Event) : (b.send e).subscribers =
    (staying (us ++ [.send e])).map fun k => ⟨k, true, (sentIn (since k (us ++ [.send e]))).toArray⟩ := by
  have hsame : staying (us ++ [.send e]) = staying us := by
    rw [staying_snoc (by simp)]
    simp
  rw [Broadcast.send, h.present, hsame, List.map_map]
  refine List.map_congr_left fun k hk => ?_
  simp [since_append (lt_of_mem_staying hk), sentIn]

theorem send (h : Reflects us b) (e : Event) : Reflects (us ++ [.send e]) (b.send e) := by
  refine ⟨by simp [Broadcast.send, h.issued, subscriptions], ?_⟩
  rw [h.subscribers_send, List.filter_map, List.filter_eq_self.2]
  simp

theorem use (h : Reflects us b) (u : Use) : Reflects (us ++ [u]) (b.use u) := by
  cases u with
  | subscribe => exact h.subscribe
  | leave number => exact h.leave number
  | send e => exact h.send e

theorem useAll (h : Reflects us b) (vs : List Use) : Reflects (us ++ vs) (b.useAll vs) := by
  induction vs generalizing us b with
  | nil => rwa [List.append_nil]
  | cons v vs ih =>
    rw [List.append_cons]
    exact ih (h.use v)

theorem exists_read? (h : Reflects us b) {k : Nat} (hk : k ∈ staying us) :
    ∃ b', b.read? k = some (sentIn (since k us), b') := by
  have hself : (staying us).find? (fun j => j = k) = some k := by
    cases hj : (staying us).find? (fun j => j = k) with
    | none => simpa using List.find?_eq_none.1 hj k hk
    | some j => simpa using List.find?_some hj
  have hfind : b.subscribers.find? (fun s => s.number = k && s.present) =
      some ⟨k, true, (sentIn (since k us)).toArray⟩ := by
    calc b.subscribers.find? (fun s => s.number = k && s.present)
        = (b.subscribers.filter (·.present)).find? fun s => s.number = k := by
          rw [List.find?_filter]
          simp [Bool.and_comm]
      _ = some ⟨k, true, (sentIn (since k us)).toArray⟩ := by
          rw [h.present, List.find?_map]
          show ((staying us).find? fun j => j = k).map _ = _
          rw [hself]
          rfl
  simp [Broadcast.read?, hfind]

end Reflects

/-- After any uses of a broadcast those who are present are those who stay, and a subscriber who stays can read the
events sent since they came, all of them and in order. After a send, only those are counted. -/
theorem inboxes_of_uses (us : List Use) :
    let b := empty.useAll us
    b.subscribers.filter (·.present) = (staying us).map (fun k => ⟨k, true, (sentIn (since k us)).toArray⟩) ∧
      (∀ k ∈ staying us, ∃ b', b.read? k = some (sentIn (since k us), b')) ∧
      ∀ e, (b.send e).size = (staying (us ++ [.send e])).length := by
  intro b
  have h : Reflects us b := Reflects.empty.useAll us
  refine ⟨h.present, fun k hk => h.exists_read? hk, fun e => ?_⟩
  rw [size, h.subscribers_send, List.length_map]

end Broadcast
end LogicDecode
