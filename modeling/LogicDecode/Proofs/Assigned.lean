import LogicDecode.Proofs.Samplers

/-!
# Decoders read the channels of their setup

Whatever a decoder of the library is made of, it reads no channel but those its setup assigns
(`Builtin.channels_of_create`), and starting it does not change which.
-/

namespace LogicDecode

theorem exists_of_bind {ε α β : Type} {x : Except ε α} {f : α → Except ε β} {b : β}
    (h : (x >>= f) = .ok b) : ∃ a, x = .ok a ∧ f a = .ok b := by
  cases x with
  | error e => cases h
  | ok a => exact ⟨a, rfl, h⟩

theorem exists_of_map {ε α β : Type} {x : Except ε α} {f : α → β} {b : β} (h : f <$> x = .ok b) :
    ∃ a, x = .ok a ∧ f a = b := by
  cases x with
  | error e => cases h
  | ok a => exact ⟨a, rfl, Except.ok.inj h⟩

theorem Outcome.accept_eq_ok {ε α : Type} {x : Except ε α} {a : α} (h : Outcome.accept x = .ok a) :
    x = .ok a := by
  cases x with
  | error e => cases h
  | ok b => cases h; rfl

theorem Outcome.check_eq_ok {ε α : Type} {x : Except Fault α} {a : α}
    (h : (Outcome.check x : Outcome ε α) = .ok a) : x = .ok a := by
  cases x with
  | error e => cases h
  | ok b => cases h; rfl

theorem Keyed.mem_of_get? {α : Type} {xs : Keyed α} {k : String} {v : α} (h : xs.get? k = some v) :
    v ∈ xs.map Prod.snd := by
  induction xs with
  | nil => cases h
  | cons p xs ih =>
    obtain ⟨k', v'⟩ := p
    rw [get?_cons] at h
    by_cases hk : k = k'
    · rw [if_pos hk] at h
      cases h
      exact List.mem_cons_self ..
    · rw [if_neg hk] at h
      exact List.mem_cons_of_mem _ (ih h)

namespace Setup
variable {s : Setup} {id : String} {c : Nat}

/-- The bits that are assigned to channels. -/
def bits (s : Setup) : List Nat := s.channels.map Prod.snd

theorem mem_bits_of_channel? (h : s.channel? id = some c) : c ∈ s.bits := Keyed.mem_of_get? h

theorem mem_bits_of_channel (h : s.channel id = .ok c) : c ∈ s.bits := by
  unfold channel at h
  split at h
  · rename_i bit hbit
    cases h
    exact mem_bits_of_channel? hbit
  · cases h

end Setup

namespace Spi

theorem settings?_channels {s : Setup} {t : Settings} (h : settings? s = .ok t) :
    ∀ c ∈ t.channels, c ∈ s.bits := by
  obtain ⟨clk, hclk, h⟩ := exists_of_bind h
  extract_lets mosi miso rest at h
  split at h
  · cases h
  obtain ⟨cpol, -, h⟩ := exists_of_bind h
  obtain ⟨cpha, -, h⟩ := exists_of_bind h
  obtain ⟨wordSize, -, h⟩ := exists_of_bind h
  extract_lets rest' at h
  split at h
  · cases h
  obtain ⟨polarity, -, h⟩ := exists_of_bind h
  cases h
  intro c hc
  simp only [Settings.channels, List.mem_cons, List.mem_append, Option.mem_toList] at hc
  rcases hc with rfl | (hc | hc) | hc
  · exact Setup.mem_bits_of_channel hclk
  · exact Setup.mem_bits_of_channel? hc
  · exact Setup.mem_bits_of_channel? hc
  · exact Setup.mem_bits_of_channel? hc

theorem channels_ofSetup {s : Setup} {d : Spi} (h : ofSetup s = .ok d) :
    ∀ c ∈ d.settings.channels, c ∈ s.bits := by
  obtain ⟨t, ht, h⟩ := exists_of_bind h
  obtain ⟨d', hd', h⟩ := exists_of_bind h
  have ht := settings?_channels (Outcome.accept_eq_ok ht)
  have hd' := Outcome.check_eq_ok hd'
  unfold create at hd'
  split at hd'
  · cases hd'
    cases h
    intro c hc
    refine ht c ?_
    cases hcs : t.cs with
    | none => simpa [Settings.channels, hcs] using hc
    | some cs => simpa [Settings.channels, hcs, withSelect] using hc
  · cases hd'

end Spi

namespace Parallel

theorem mem_of_mem_trim {line : Option Nat} {lines : List (Option Nat)} (h : line ∈ trim lines) :
    line ∈ lines := by
  have h := (List.dropWhile_sublist _).subset (List.mem_reverse.1 h)
  exact List.mem_reverse.1 h

theorem settings?_channels {s : Setup} {t : Settings} (h : settings? s = .ok t) :
    ∀ c ∈ t.channels, c ∈ s.bits := by
  obtain ⟨clk, hclk, h⟩ := exists_of_bind h
  obtain ⟨d0, -, h⟩ := exists_of_bind h
  obtain ⟨strobe, -, h⟩ := exists_of_bind h
  cases h
  intro c hc
  rcases List.mem_cons.1 hc with rfl | hc
  · exact Setup.mem_bits_of_channel hclk
  · obtain ⟨line, hline, hc⟩ := List.mem_filterMap.1 hc
    obtain ⟨i, -, rfl⟩ := List.mem_map.1 (mem_of_mem_trim hline)
    exact Setup.mem_bits_of_channel? hc

theorem channels_ofSetup {s : Setup} {d : Parallel} (h : ofSetup s = .ok d) :
    ∀ c ∈ d.settings.channels, c ∈ s.bits := by
  obtain ⟨t, ht, h⟩ := exists_of_bind h
  have ht := settings?_channels (Outcome.accept_eq_ok ht)
  have h := Outcome.check_eq_ok h
  unfold create at h
  split at h
  · cases h
    exact ht
  · cases h

end Parallel

namespace Registry
variable {σ : Type} {id : String} {x : Registration σ}

theorem mem_of_get?_register {xs : List (Registration σ)} {r : Registry σ}
    (h : (xs.foldl register r).get? id = some x) : x ∈ xs ∧ x.profile.id = id ∨ r.get? id = some x := by
  induction xs generalizing r with
  | nil => exact .inr h
  | cons y xs ih =>
    rcases ih h with ⟨hx, hid⟩ | h
    · exact .inl ⟨List.mem_cons_of_mem _ hx, hid⟩
    · rw [register, Keyed.get?_insert] at h
      by_cases hid : id = y.profile.id
      · rw [if_pos hid] at h
        cases h
        exact .inl ⟨List.mem_cons_self .., hid.symm⟩
      · rw [if_neg hid] at h
        exact .inr h

theorem mem_of_get?_ofList {xs : List (Registration σ)} (h : (ofList xs).get? id = some x) :
    x ∈ xs ∧ x.profile.id = id := by
  rcases mem_of_get?_register h with h | h
  · exact h
  · cases h

end Registry

namespace Builtin

/-- A decoder that is made of a setup reads the channels that are assigned there. -/
theorem channels_of_create {r : Registration Builtin} (hr : r ∈ registrations) {s : Setup} {b : Builtin}
    (h : r.create s = .ok b) : ∀ c ∈ b.channels, c ∈ s.bits := by
  rcases List.mem_cons.1 hr with rfl | hr
  · obtain ⟨d, hd, rfl⟩ := exists_of_map h
    exact Spi.channels_ofSetup hd
  · rw [List.mem_singleton.1 hr] at h
    obtain ⟨d, hd, rfl⟩ := exists_of_map h
    exact Parallel.channels_ofSetup hd

theorem channels_start (b : Builtin) (hz : Nat) : (Protocol.start b hz).channels = b.channels := by
  cases b <;> rfl

end Builtin

end LogicDecode
