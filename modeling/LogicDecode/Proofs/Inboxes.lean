import LogicDecode.Proofs.Filing
import Mathlib.Data.Nat.Init

/-!
# The inbox of one subscriber

As long as a subscriber does not leave, what is in the inbox and what has been read from it are the events sent,
in their order, whatever other subscribers do (`Attends`). Marks that are stored in any number of goes are
told of once for every group of as many as the period says (`Broadcast.exists_tell`).
-/

namespace LogicDecode
namespace Broadcast
variable {b b' : Broadcast} {k number : Nat} {inbox events : List Event} {e : Event}

def sendAll (b : Broadcast) (es : List Event) : Broadcast := es.foldl send b

/-- The subscriber of a number is there, with some events to be read. -/
structure Attends (b : Broadcast) (k : Nat) (inbox : List Event) : Prop where
  issued : k < b.issued
  only : b.subscribers.filter (fun s => s.number = k) = [⟨k, true, inbox.toArray⟩]

namespace Attends

theorem send (h : b.Attends k inbox) (e : Event) : (b.send e).Attends k (inbox ++ [e]) := by
  refine ⟨h.issued, ?_⟩
  have hnumber : ((fun s : Subscriber => decide (s.number = k)) ∘ fun s : Subscriber => { s with inbox := s.inbox.push e }) =
      fun s => decide (s.number = k) := rfl
  simp only [Broadcast.send]
  rw [List.filter_map, hnumber, List.filter_comm, h.only]
  simp

theorem sendAll (h : b.Attends k inbox) (es : List Event) : (b.sendAll es).Attends k (inbox ++ es) := by
  induction es generalizing b inbox with
  | nil => rwa [List.append_nil]
  | cons e es ih =>
    rw [List.append_cons]
    exact ih (h.send e)

theorem subscribe (h : b.Attends k inbox) : b.subscribe.1.Attends k inbox := by
  have hne : b.issued ≠ k := Nat.ne_of_gt h.issued
  refine ⟨Nat.lt_succ_of_lt h.issued, ?_⟩
  simp [Broadcast.subscribe, h.only, hne]

/-- What is done to the subscriber of another number makes no difference. -/
theorem update (h : b.Attends k inbox) (hne : number ≠ k) {f : Subscriber → Subscriber}
    (hf : ∀ s, (f s).number = s.number) :
    Attends ⟨b.issued, b.subscribers.map fun s => if s.number = number then f s else s⟩ k inbox := by
  refine ⟨h.issued, ?_⟩
  have hnumber : ((fun s : Subscriber => decide (s.number = k)) ∘ fun s : Subscriber => if s.number = number then f s else s) =
      fun s => decide (s.number = k) := by
    funext s
    simp only [Function.comp]
    split
    · rw [hf]
    · rfl
  rw [List.filter_map, hnumber, h.only]
  simp [hne.symm]

theorem leave (h : b.Attends k inbox) (hne : number ≠ k) : (b.leave number).Attends k inbox :=
  h.update hne fun _ => rfl

theorem read?_self (h : b.Attends k inbox) : ∃ b', b.read? k = some (inbox, b') ∧ b'.Attends k [] := by
  have hfind : b.subscribers.find? (fun s => s.number = k && s.present) = some ⟨k, true, inbox.toArray⟩ := by
    rw [← List.head?_filter]
    have hboth : b.subscribers.filter (fun s => s.number = k && s.present) =
        (b.subscribers.filter fun s => s.number = k).filter (·.present) := by
      rw [List.filter_filter]
      exact List.filter_congr fun s _ => Bool.and_comm ..
    rw [hboth, h.only]
    rfl
  have hnumber : ((fun s : Subscriber => decide (s.number = k)) ∘ fun s : Subscriber =>
      if s.number = k then { s with inbox := #[] } else s) = fun s => decide (s.number = k) := by
    funext s
    simp only [Function.comp]
    split <;> rfl
  refine ⟨⟨b.issued, b.subscribers.map fun s => if s.number = k then { s with inbox := #[] } else s⟩, ?_, h.issued, ?_⟩
  · simp only [Broadcast.read?, hfind]
  · rw [List.filter_map, hnumber, h.only]
    simp

theorem read? (h : b.Attends k inbox) (hread : b.read? number = some (events, b')) :
    (number = k ∧ events = inbox ∧ b'.Attends k []) ∨ number ≠ k ∧ b'.Attends k inbox := by
  by_cases hne : number = k
  · subst hne
    obtain ⟨b'', hself, hnext⟩ := h.read?_self
    rw [hself] at hread
    cases hread
    exact .inl ⟨rfl, rfl, hnext⟩
  · refine .inr ⟨hne, ?_⟩
    unfold Broadcast.read? at hread
    split at hread
    · cases hread
    · cases hread
      exact h.update hne fun _ => rfl

end Attends

end Broadcast

/-- How often subscribers are told of a number of marks. -/
def notices (period n : Nat) : Nat := (n + period - 1) / period

theorem notices_zero {period : Nat} (h : 0 < period) : notices period 0 = 0 :=
  Nat.div_eq_of_lt (by omega)

theorem notices_succ {period : Nat} (h : 0 < period) (n : Nat) :
    notices period (n + 1) = notices period n + if n % period = 0 then 1 else 0 := by
  have hnext : n + 1 + period - 1 = n + period - 1 + 1 := by omega
  have hdvd : period ∣ n + period - 1 + 1 ↔ n % period = 0 := by
    rw [Nat.sub_add_cancel (by omega), Nat.dvd_add_left (Nat.dvd_refl period), Nat.dvd_iff_mod_eq_zero]
  unfold notices
  rw [hnext, Nat.succ_div]
  simp only [hdvd]

theorem Broadcast.exists_tell {period : Nat} (h : 0 < period) (b : Broadcast) (n count : Nat) :
    ∃ c, notices period (n + count) = notices period n + c ∧
      b.tell period n count = b.sendAll (List.replicate c .marks) := by
  induction count generalizing b n with
  | zero => exact ⟨0, rfl, rfl⟩
  | succ count ih =>
    obtain ⟨c, hc, htell⟩ := ih (if n % period == 0 then b.send .marks else b) (n + 1)
    have hsum : n + (count + 1) = n + 1 + count := by omega
    rw [hsum, hc, notices_succ h, Broadcast.tell_succ, htell]
    by_cases hn : n % period = 0
    · refine ⟨c + 1, by rw [if_pos hn]; omega, ?_⟩
      simp [hn, Broadcast.sendAll, List.replicate_succ]
    · exact ⟨c, by rw [if_neg hn]; omega, by simp [hn]⟩

theorem Output.noteUnlisted_stored (o : Output) (m : Mark) (row : Row) (routing : Routing) :
    (o.noteUnlisted m row routing).1.stored = o.stored ∧
      (o.noteUnlisted m row routing).1.notifyPeriod = o.notifyPeriod := by
  unfold noteUnlisted
  split <;> exact ⟨rfl, rfl⟩

/-- A mark that is stored is counted, and it is told of if the marks before it make up full periods. -/
theorem Output.stored_of_store {o : Output} {m : Mark} {tell : Bool} (h : (o.store m).result = .ok tell) :
    tell = (o.stored % o.notifyPeriod == 0) ∧ (o.store m).output.stored = o.stored + 1 ∧
      (o.store m).output.notifyPeriod = o.notifyPeriod := by
  unfold store at h ⊢
  split at h
  · cases h
  · rename_i row routing hc
    obtain ⟨hstored, hperiod⟩ := o.noteUnlisted_stored m row routing
    dsimp only at h ⊢
    split at h
    · have htell : ((o.noteUnlisted m row routing).1.stored % (o.noteUnlisted m row routing).1.notifyPeriod == 0) =
          tell := Except.ok.inj h
      rw [hstored, hperiod] at htell
      exact ⟨htell.symm, congrArg (· + 1) hstored, hperiod⟩
    · cases h
    · cases h

/-- What marks that are stored without a fault do to the count, and what is told of them. -/
theorem tell_of_storeAll {marks : List Mark} {o o' : Output} {b b' : Broadcast} {log log' : List LogEntry}
    (h : Stack.storeAll marks o b log = (o', b', log', none)) :
    o'.stored = o.stored + marks.length ∧ o'.notifyPeriod = o.notifyPeriod ∧
      b' = b.tell o.notifyPeriod o.stored marks.length := by
  induction marks generalizing o b log with
  | nil =>
    cases h
    exact ⟨rfl, rfl, rfl⟩
  | cons m rest ih =>
    cases hr : (o.store m).result with
    | error f =>
      rw [storeAll_cons_fault hr] at h
      cases h
    | ok tell =>
      rw [storeAll_cons hr] at h
      obtain ⟨rfl, hstored, hperiod⟩ := Output.stored_of_store hr
      obtain ⟨hcount, hkept, htell⟩ := ih h
      rw [hstored, hperiod] at htell
      refine ⟨by rw [hcount, hstored, List.length_cons]; omega, hkept.trans hperiod, ?_⟩
      rw [htell, List.length_cons, Broadcast.tell_succ]

end LogicDecode
