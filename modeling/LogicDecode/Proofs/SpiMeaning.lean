import LogicDecode.Proofs.HexWord
import LogicDecode.Proofs.Samplers
import Mathlib.Data.List.SplitBy

/-!
# What an SPI decoder finds in a waveform

`Spi.Settings.meaning` says without any state what a decoder finds: the sampling edges of each maximal
run of active samples are cut into groups of the word size, each full group is a word, and what is left
of a run that ends is a warning. `Spi.takeAll_start` says that a started decoder puts just these
findings, in this order, however the samples are cut into chunks.

The invariant between two samples is `Spi.Pending`: the word in the decoder is made of the edges of the
current run that do not fill a group yet. A run of active samples keeps it (`Pending.sweep_active`), and
so does a run of inactive ones, which begins with the warning (`Pending.sweep_inactive`).
-/

namespace LogicDecode

/-- The full groups of `n` that a list can be cut into from the front. -/
def fullGroups {α : Type} (n : Nat) (xs : List α) : List (List α) :=
  (List.range (xs.length / n)).map fun k => (xs.drop (k * n)).take n

/-- What is left of a list behind its full groups. -/
def leftover {α : Type} (n : Nat) (xs : List α) : List α := xs.drop (xs.length / n * n)

section Groups
variable {α : Type} {n : Nat} {group xs : List α}

theorem fullGroups_of_short (h : xs.length < n) : fullGroups n xs = [] := by
  simp [fullGroups, Nat.div_eq_of_lt h]

theorem leftover_of_short (h : xs.length < n) : leftover n xs = xs := by
  simp [leftover, Nat.div_eq_of_lt h]

theorem length_append_div (hn : 0 < n) (h : group.length = n) :
    (group ++ xs).length / n = xs.length / n + 1 := by
  rw [List.length_append, h, Nat.add_div_left _ hn]

theorem drop_group (h : group.length = n) (k : Nat) : (group ++ xs).drop ((k + 1) * n) = xs.drop (k * n) := by
  rw [Nat.succ_mul, Nat.add_comm, ← List.drop_drop, ← h, List.drop_left]

theorem fullGroups_append (hn : 0 < n) (h : group.length = n) :
    fullGroups n (group ++ xs) = group :: fullGroups n xs := by
  rw [fullGroups, length_append_div hn h, List.range_succ_eq_map, List.map_cons, List.map_map]
  refine congrArg₂ List.cons ?_ (List.map_congr_left fun k _ => ?_)
  · rw [Nat.zero_mul, List.drop_zero, ← h, List.take_left]
  · exact congrArg (List.take n) (drop_group h k)

theorem leftover_append (hn : 0 < n) (h : group.length = n) :
    leftover n (group ++ xs) = leftover n xs := by
  rw [leftover, length_append_div hn h, drop_group h]; rfl

theorem fullGroups_self (hn : 0 < n) (h : group.length = n) : fullGroups n group = [group] := by
  have happ : fullGroups n (group ++ []) = group :: fullGroups n [] := fullGroups_append hn h
  have hnil : fullGroups n ([] : List α) = [] := fullGroups_of_short hn
  rwa [List.append_nil, hnil] at happ

theorem leftover_self (hn : 0 < n) (h : group.length = n) : leftover n group = [] := by
  have happ : leftover n (group ++ []) = leftover n [] := leftover_append hn h
  have hnil : leftover n ([] : List α) = [] := leftover_of_short hn
  rwa [List.append_nil, hnil] at happ

end Groups

namespace Spi

namespace Settings

variable (t : Settings) (level : Nat → Nat → Bool) (first stop : Nat)

/-- Whether the select line is active at a sample; without one it always is. -/
def activeAt (i : Nat) : Bool :=
  match t.cs with
  | some c => t.polarity.isActive (level i c)
  | none => true

/-- Whether the clock has just reached its sampling level at a sample behind the first one. -/
def edgeAt (i : Nat) : Bool :=
  decide (first < i) && level (i - 1) t.clk != level i t.clk && level i t.clk == t.mode.samplesOnRising

/-- The maximal runs of active samples, each with its samples in order. -/
def runs : List (List Nat) :=
  ((List.range' first (stop - first)).splitBy fun i j => t.activeAt level i == t.activeAt level j).filter
    fun run => run.all (t.activeAt level)

/-- The value of the levels of a line at some samples, the first one being the most significant. -/
def valueAt (c : Nat) (samples : List Nat) : Nat := samples.foldl (fun v i => 2 * v + (level i c).toNat) 0

/-- The word of a data line at the edges of a full group, if the line is assigned. -/
def wordOf (line : Option Nat) (cls : Nat) (group : List Nat) : List Finding :=
  match line with
  | none => []
  | some c => [⟨group.headD 0, group.getLastD 0 + 1, cls,
      [String.ofList (hexDigits ((t.wordSize + 3) / 4) (valueAt level c group))]⟩]

/-- The words of the data lines at the edges of a full group. -/
def wordsOf (group : List Nat) : List Finding :=
  t.wordOf level t.mosi mosiData group ++ t.wordOf level t.miso misoData group

/-- The warning that is left of some edges at the sample that ends their run. -/
def warningOf (rest : List Nat) (i : Nat) : List Finding :=
  match rest with
  | [] => []
  | start :: _ => [⟨start, i, warning, [s!"Incomplete word: {rest.length} of {t.wordSize} bits"]⟩]

/-- The findings in a run: its words, and a warning if a sample follows behind it. -/
def findingsOf (run : List Nat) : List Finding :=
  let edges := run.filter (t.edgeAt level first)
  let behind := run.getLastD 0 + 1
  (fullGroups t.wordSize edges).flatMap (t.wordsOf level) ++
    if behind < stop then t.warningOf (leftover t.wordSize edges) behind else []

/-- All that is to be found in the samples `[first, stop)`. -/
def meaning : List Finding := (t.runs level first stop).flatMap (t.findingsOf level first stop)

/-- The value on a data line at some samples, 0 if the line is not assigned. -/
def lineValue (line : Option Nat) (samples : List Nat) : Nat :=
  match line with
  | none => 0
  | some c => valueAt level c samples

/-- The word in a decoder that has seen some edges. -/
def partialWord (edges : List Nat) : Word :=
  ⟨lineValue level t.mosi edges, lineValue level t.miso edges, edges.length, edges.headD 0⟩

variable {level}

theorem valueAt_lt (c : Nat) (samples : List Nat) : valueAt level c samples < 2 ^ samples.length := by
  induction samples using List.reverseRecOn with
  | nil => simp [valueAt]
  | append_singleton samples i ih =>
    have hbit : (level i c).toNat < 2 := Bool.toNat_lt _
    simp only [valueAt, List.foldl_append, List.foldl_cons, List.foldl_nil, List.length_append,
      List.length_singleton, Nat.pow_succ] at ih ⊢
    omega

theorem valueAt_lt_digits (c : Nat) (samples : List Nat) :
    valueAt level c samples < 16 ^ ((samples.length + 3) / 4) := by
  refine Nat.lt_of_lt_of_le (valueAt_lt c samples) ?_
  rw [show 16 = 2 ^ 4 by decide, ← Nat.pow_mul]
  exact Nat.pow_le_pow_right (by decide) (by omega)

theorem shiftIn_lineValue (line : Option Nat) (edges : List Nat) (i : Nat) :
    shiftIn (lineValue level line edges) line (level i) = lineValue level line (edges ++ [i]) := by
  cases line with
  | none => rfl
  | some c => simp [shiftIn, lineValue, valueAt, List.foldl_append]

theorem partialWord_nil : t.partialWord level [] = .empty := by
  cases hmosi : t.mosi <;> cases hmiso : t.miso <;>
    simp [partialWord, lineValue, valueAt, Word.empty, hmosi, hmiso]

theorem partialWord_append (edges : List Nat) (i : Nat) :
    t.partialWord level (edges ++ [i]) =
      ⟨shiftIn (lineValue level t.mosi edges) t.mosi (level i),
        shiftIn (lineValue level t.miso edges) t.miso (level i), edges.length + 1,
        if edges.length = 0 then i else edges.headD 0⟩ := by
  rw [shiftIn_lineValue, shiftIn_lineValue]
  cases edges <;> simp [partialWord]

end Settings

variable {t : Settings} {level : Nat → Nat → Bool} {first : Nat}

theorem report_partialWord {d : Spi} (ht : d.settings = t) {edges : List Nat} {i : Nat} (hw : 0 < t.wordSize)
    (hfull : (edges ++ [i]).length = t.wordSize) :
    d.report (t.partialWord level (edges ++ [i])) (i + 1) = t.wordsOf level (edges ++ [i]) := by
  have hword : ∀ line cls, (if line.isSome then
      [(⟨(edges ++ [i]).headD 0, i + 1, cls, [hexWord (Settings.lineValue level line (edges ++ [i]))
        t.wordSize]⟩ : Finding)] else []) = t.wordOf level line cls (edges ++ [i]) := by
    intro line cls
    cases line with
    | none => rfl
    | some c =>
      have hlt : Settings.valueAt level c (edges ++ [i]) < 16 ^ ((t.wordSize + 3) / 4) :=
        hfull ▸ Settings.valueAt_lt_digits c (edges ++ [i])
      simp [Settings.wordOf, Settings.lineValue, hexWord_eq hw hlt]
  simp only [report, ht, Settings.wordsOf, Settings.partialWord]
  rw [hword, hword]

theorem sweep_succ (d : Spi) (level : Nat → Nat → Bool) (i n : Nat) :
    Sampling.sweep level d i (n + 1) =
      ((Sampling.sweep level (d.step i (level i)).1 (i + 1) n).1,
        (d.step i (level i)).2 ++ (Sampling.sweep level (d.step i (level i)).1 (i + 1) n).2) :=
  scan_succ _ _ _ _

/-- A decoder before sample `i`, with the edges of the current run that fill no group yet. -/
structure Pending (t : Settings) (level : Nat → Nat → Bool) (first : Nat) (d : Spi) (i : Nat)
    (edges : List Nat) : Prop where
  settings : d.settings = t
  first_le : first ≤ i
  clk : d.prevClk = if i = first then none else some (level (i - 1) t.clk)
  word : d.word = t.partialWord level edges
  short : edges.length < t.wordSize
  /-- There are edges only while the select line is active. -/
  selected : edges ≠ [] → d.prevActive = true

namespace Pending

variable {d : Spi} {i : Nat} {edges : List Nat}

theorem start (d : Spi) (level : Nat → Nat → Bool) (first : Nat) (hw : 0 < d.settings.wordSize) :
    Pending d.settings level first d.start first [] where
  settings := rfl
  first_le := Nat.le_refl _
  clk := by rw [if_pos rfl]; rfl
  word := (Settings.partialWord_nil _).symm
  short := hw
  selected h := absurd rfl h

theorem active_eq (h : Pending t level first d i edges) (j : Nat) :
    d.active (level j) = t.activeAt level j := by
  obtain rfl := h.settings
  cases hcs : d.settings.cs <;> simp only [active, Settings.activeAt, hcs]

theorem word_of_idle (h : Pending t level first d i []) : d.word = .empty :=
  h.word.trans t.partialWord_nil

theorem select_active (h : Pending t level first d i edges) (ha : t.activeAt level i = true) :
    d.select i (level i) = ({ d with prevActive := true }, []) := by
  unfold select
  rw [h.active_eq, ha]
  cases hp : d.prevActive with
  | true => simp only [BEq.rfl, ↓reduceIte, ← hp]
  | false =>
    -- the line turns active: nothing was gathered before
    have hedges : edges = [] := by
      by_contra hne
      rw [h.selected hne] at hp
      cases hp
    subst hedges
    simp [h.word_of_idle]

theorem select_inactive (h : Pending t level first d i edges) (ha : t.activeAt level i = false) :
    d.select i (level i) =
      ({ d with prevActive := false, word := .empty }, t.warningOf edges i) := by
  unfold select
  rw [h.active_eq, ha]
  cases edges with
  | nil =>
    have hword : d.word = .empty := h.word_of_idle
    cases hp : d.prevActive with
    | true => simp [hword, Settings.warningOf, Word.empty]
    | false =>
      cases d
      cases hword
      cases hp
      rfl
  | cons start rest =>
    have hp : d.prevActive = true := h.selected (List.cons_ne_nil _ _)
    simp [hp, h.word, h.settings, Settings.partialWord, Settings.warningOf]

/-- The clock stands still for the decoder: it is the first sample, no edge, or not selected. -/
theorem tick_still (h : Pending t level first d i edges)
    (hs : t.edgeAt level first i = false ∨ t.activeAt level i = false) (b : Bool) (w : Word) :
    tick { d with prevActive := b, word := w } i (level i) =
      ({ d with prevActive := b, word := w, prevClk := some (level i t.clk) }, []) := by
  have hactive : active { d with prevActive := b, word := w } (level i) = t.activeAt level i :=
    h.active_eq i
  unfold tick
  rw [hactive]
  simp only [h.clk, h.settings]
  by_cases hi : i = first
  · rw [if_pos hi]
  · rw [if_neg hi]
    have hlt : first < i := by have := h.first_le; omega
    refine if_pos ?_
    rcases hs with hs | hs
    · simp only [Settings.edgeAt, hlt, decide_true, Bool.true_and, Bool.and_eq_false_iff] at hs
      rcases hs with hs | hs
      · rw [bne_eq_false_iff_eq] at hs
        simp [hs]
      · rw [beq_eq_false_iff_ne] at hs
        simp [hs]
    · simp [hs]

theorem tick_edge (h : Pending t level first d i edges) (he : t.edgeAt level first i = true)
    (ha : t.activeAt level i = true) (b : Bool) (w : Word) :
    tick { d with prevActive := b, word := w } i (level i) =
      shift { d with prevActive := b, word := w, prevClk := some (level i t.clk) } i (level i) := by
  have hactive : active { d with prevActive := b, word := w } (level i) = t.activeAt level i :=
    h.active_eq i
  simp only [Settings.edgeAt, Bool.and_eq_true, decide_eq_true_eq, bne_iff_ne, beq_iff_eq] at he
  obtain ⟨⟨hlt, hne⟩, hlevel⟩ := he
  unfold tick
  rw [hactive]
  simp only [h.clk, h.settings]
  rw [if_neg (show i ≠ first by omega)]
  refine if_neg ?_
  rw [hlevel] at hne ⊢
  simp [hne, ha]

/-- What an active sample does: without an edge nothing, else it adds to the word, which may be full. -/
theorem step_active (h : Pending t level first d i edges) (ha : t.activeAt level i = true) :
    let more := if t.edgeAt level first i then edges ++ [i] else edges
    (d.step i (level i)).2 = (fullGroups t.wordSize more).flatMap (t.wordsOf level) ∧
      Pending t level first (d.step i (level i)).1 (i + 1) (leftover t.wordSize more) := by
  intro more
  have hclk : some (level i t.clk) = if i + 1 = first then none else some (level (i + 1 - 1) t.clk) := by
    have := h.first_le
    rw [if_neg (by omega), Nat.add_sub_cancel]
  have hle : first ≤ i + 1 := Nat.le_succ_of_le h.first_le
  have hw : 0 < t.wordSize := by have := h.short; omega
  unfold step
  rw [h.select_active ha]
  dsimp only
  cases he : t.edgeAt level first i with
  | false =>
    have hmore : more = edges := by simp [more, he]
    rw [hmore, fullGroups_of_short h.short, leftover_of_short h.short]
    have htick := h.tick_still (.inl he) true d.word
    refine ⟨by simp [htick], ?_⟩
    rw [htick]
    exact ⟨h.settings, hle, hclk, h.word, h.short, fun _ => rfl⟩
  | true =>
    have hmore : more = edges ++ [i] := by simp [more, he]
    have htick := h.tick_edge he ha true d.word
    have hbits : d.word.bits + 1 = (edges ++ [i]).length := by
      rw [h.word]; simp [Settings.partialWord]
    have hnext : t.partialWord level (edges ++ [i]) = _ := t.partialWord_append edges i
    rw [hmore, htick]
    unfold shift
    simp only [h.word, h.settings, Settings.partialWord] at hbits ⊢
    simp only [← hnext]
    -- the bit may be the last one of the word
    by_cases hfull : (edges ++ [i]).length = t.wordSize
    · have hif : edges.length + 1 = t.wordSize := by simpa using hfull
      rw [if_pos hif, fullGroups_self hw hfull, leftover_self hw hfull]
      refine ⟨?_, rfl, hle, hclk, (t.partialWord_nil).symm, hw, fun hne => absurd rfl hne⟩
      simp only [List.nil_append, List.flatMap_cons, List.flatMap_nil, List.append_nil]
      exact report_partialWord rfl hw hfull
    · have hshort : (edges ++ [i]).length < t.wordSize := by
        have h1 := h.short
        simp only [List.length_append, List.length_singleton] at hfull ⊢
        omega
      have hif : edges.length + 1 ≠ t.wordSize := by simpa using hfull
      rw [if_neg hif, fullGroups_of_short hshort, leftover_of_short hshort]
      exact ⟨rfl, rfl, hle, hclk, rfl, hshort, fun _ => rfl⟩

theorem step_inactive (h : Pending t level first d i edges) (ha : t.activeAt level i = false) :
    (d.step i (level i)).2 = t.warningOf edges i ∧
      Pending t level first (d.step i (level i)).1 (i + 1) [] := by
  have htick := h.tick_still (.inr ha) false .empty
  have hle : first ≤ i + 1 := Nat.le_succ_of_le h.first_le
  unfold step
  rw [h.select_inactive ha]
  dsimp only
  rw [htick]
  refine ⟨List.append_nil _, h.settings, hle, ?_, (t.partialWord_nil).symm, ?_, fun hne => absurd rfl hne⟩
  · have := h.first_le
    rw [if_neg (by omega), Nat.add_sub_cancel]
  · exact Nat.lt_of_le_of_lt (Nat.zero_le _) h.short

/-- A run of active samples: the words of the edges, those from before included. -/
theorem sweep_active (h : Pending t level first d i edges) (n : Nat)
    (ha : ∀ j ∈ List.range' i n, t.activeAt level j = true) :
    let more := edges ++ (List.range' i n).filter (t.edgeAt level first)
    (Sampling.sweep level d i n).2 = (fullGroups t.wordSize more).flatMap (t.wordsOf level) ∧
      Pending t level first (Sampling.sweep level d i n).1 (i + n) (leftover t.wordSize more) := by
  induction n generalizing d i edges with
  | zero =>
    simp only [List.range'_zero, List.filter_nil, List.append_nil, fullGroups_of_short h.short,
      leftover_of_short h.short]
    exact ⟨rfl, h⟩
  | succ n ih =>
    intro more
    have hw : 0 < t.wordSize := Nat.lt_of_le_of_lt (Nat.zero_le _) h.short
    rw [List.range'_succ] at ha
    obtain ⟨hout, hnext⟩ := h.step_active (ha i (List.mem_cons_self ..))
    obtain ⟨hrest, hend⟩ := ih hnext fun j hj => ha j (List.mem_cons_of_mem _ hj)
    set taken := if t.edgeAt level first i then edges ++ [i] else edges with htaken
    have hmore : more = taken ++ (List.range' (i + 1) n).filter (t.edgeAt level first) := by
      simp only [more, htaken, List.range'_succ, List.filter_cons]
      split <;> simp
    rw [sweep_succ, hmore, show i + (n + 1) = i + 1 + n by omega]
    dsimp only
    rw [hout, hrest]
    -- the edges so far are a full group, or there is none yet
    by_cases hfull : taken.length = t.wordSize
    · rw [fullGroups_append hw hfull, leftover_append hw hfull, fullGroups_self hw hfull]
      rw [leftover_self hw hfull] at hend ⊢
      exact ⟨by simp, hend⟩
    · have hshort : taken.length < t.wordSize := by
        have h1 := h.short
        have h2 : taken.length ≤ edges.length + 1 := by rw [htaken]; split <;> simp
        omega
      rw [leftover_of_short hshort] at hend ⊢
      rw [fullGroups_of_short hshort]
      exact ⟨rfl, hend⟩

/-- A run of inactive samples: the warning at the first of them. -/
theorem sweep_inactive (h : Pending t level first d i edges) {n : Nat} (hn : 0 < n)
    (ha : ∀ j ∈ List.range' i n, t.activeAt level j = false) :
    (Sampling.sweep level d i n).2 = t.warningOf edges i ∧
      Pending t level first (Sampling.sweep level d i n).1 (i + n) [] := by
  induction n generalizing d i edges with
  | zero => omega
  | succ n ih =>
    rw [List.range'_succ] at ha
    obtain ⟨hout, hnext⟩ := h.step_inactive (ha i (List.mem_cons_self ..))
    rw [sweep_succ]
    dsimp only
    rw [hout]
    by_cases hn : n = 0
    · subst hn
      exact ⟨List.append_nil _, hnext⟩
    · obtain ⟨hrest, hend⟩ := ih hnext (by omega) fun j hj => ha j (List.mem_cons_of_mem _ hj)
      rw [hrest, show i + (n + 1) = i + 1 + n by omega]
      exact ⟨List.append_nil _, hend⟩

end Pending

theorem activeAt_of_chain {j : Nat} {rest : List Nat}
    (h : (j :: rest).IsChain fun x y => t.activeAt level x == t.activeAt level y) :
    ∀ k ∈ j :: rest, t.activeAt level k = t.activeAt level j := by
  induction rest generalizing j with
  | nil => simp
  | cons r rest ih =>
    rw [List.isChain_cons_cons] at h
    have hr : t.activeAt level j = t.activeAt level r := by simpa using h.1
    intro k hk
    rcases List.mem_cons.1 hk with rfl | hk
    · rfl
    · rw [hr]; exact ih h.2 k hk

/-- The samples from `i` on in groups: active and inactive ones take turns. -/
structure Turns (t : Settings) (level : Nat → Nat → Bool) (i stop : Nat) (groups : List (List Nat)) : Prop where
  flat : groups.flatten = List.range' i (stop - i)
  nonempty : [] ∉ groups
  same : ∀ g ∈ groups, g.IsChain fun x y => t.activeAt level x == t.activeAt level y
  turn : groups.IsChain fun a b =>
    ∃ ha hb, (t.activeAt level (a.getLast ha) == t.activeAt level (b.head hb)) = false

namespace Turns
variable {i stop : Nat} {g : List Nat} {groups : List (List Nat)}

theorem splitBy (t : Settings) (level : Nat → Nat → Bool) (i stop : Nat) :
    Turns t level i stop
      ((List.range' i (stop - i)).splitBy fun x y => t.activeAt level x == t.activeAt level y) where
  flat := List.flatten_splitBy _ _
  nonempty := List.nil_notMem_splitBy _ _
  same _ := List.isChain_of_mem_splitBy
  turn := List.isChain_getLast_head_splitBy (fun x y => t.activeAt level x == t.activeAt level y) _

theorem stop_le (h : Turns t level i stop []) : stop ≤ i := by
  have hlen := congrArg List.length h.flat
  simp only [List.flatten_nil, List.length_nil, List.length_range'] at hlen
  omega

theorem head_eq (h : Turns t level i stop (g :: groups)) (hg : g ≠ []) : g.head hg = i := by
  have hflat := h.flat
  cases g with
  | nil => exact absurd rfl hg
  | cons j g =>
    cases hk : stop - i with
    | zero => rw [hk] at hflat; cases hflat
    | succ k =>
      rw [hk, List.range'_succ] at hflat
      exact (List.cons.inj hflat).1

/-- The first group is a range, and the others begin behind it. -/
theorem cons (h : Turns t level i stop (g :: groups)) :
    ∃ n, i + n < stop ∧ g = List.range' i (n + 1) ∧ (∀ j ∈ g, t.activeAt level j = t.activeAt level i) ∧
      Turns t level (i + (n + 1)) stop groups := by
  obtain ⟨m, hm, hg, hrest⟩ := List.range'_eq_append_iff.1 (h.flat.symm.trans List.flatten_cons)
  rw [Nat.mul_one] at hrest
  have hpos : 0 < m := by
    refine Nat.pos_of_ne_zero fun h0 => h.nonempty ?_
    rw [hg, h0]
    exact List.mem_cons_self ..
  obtain ⟨n, rfl⟩ : ∃ n, m = n + 1 := ⟨m - 1, by omega⟩
  have hcons : g = i :: List.range' (i + 1) n := hg.trans List.range'_succ
  refine ⟨n, by omega, hg, ?_, ?_⟩
  · have hchain := h.same g (List.mem_cons_self ..)
    rw [hcons] at hchain ⊢
    exact activeAt_of_chain hchain
  · refine ⟨?_, fun hmem => h.nonempty (List.mem_cons_of_mem _ hmem),
      fun g' hg' => h.same g' (List.mem_cons_of_mem _ hg'), h.turn.tail⟩
    rw [hrest, Nat.sub_sub]

/-- Behind an active group comes an inactive one, if any. -/
theorem inactive_behind {n : Nat} (h : Turns t level i stop (List.range' i (n + 1) :: groups))
    (hrest : Turns t level (i + (n + 1)) stop groups) (hlt : i + (n + 1) < stop)
    (hact : t.activeAt level (i + n) = true) : t.activeAt level (i + (n + 1)) = false := by
  cases groups with
  | nil => exact absurd hrest.stop_le (by omega)
  | cons g groups =>
    obtain ⟨ha, hb, hdiff⟩ := (List.isChain_cons_cons.1 h.turn).1
    rw [hrest.head_eq hb, List.getLast_range', show i + (n + 1) - 1 = i + n from rfl, hact] at hdiff
    simpa using hdiff

end Turns

/-- From a sample at which no run goes on, or at which one ends, the findings are those of the runs
ahead, behind the warning that is due. -/
theorem Pending.sweep_groups {stop : Nat} {groups : List (List Nat)} {d : Spi} {i : Nat} {edges : List Nat}
    (h : Pending t level first d i edges) (hturns : Turns t level i stop groups)
    (hends : edges ≠ [] → i < stop → t.activeAt level i = false) :
    (Sampling.sweep level d i (stop - i)).2 =
      (if i < stop then t.warningOf edges i else []) ++
        (groups.filter fun run => run.all (t.activeAt level)).flatMap (t.findingsOf level first stop) := by
  induction groups generalizing d i edges with
  | nil =>
    have hle := hturns.stop_le
    rw [Nat.sub_eq_zero_of_le hle, if_neg (Nat.not_lt.2 hle)]
    rfl
  | cons g rest ih =>
    obtain ⟨n, hn, hg, hconst, hrest⟩ := hturns.cons
    have hlt : i < stop := by omega
    have hmem : ∀ j ∈ List.range' i (n + 1), t.activeAt level j = t.activeAt level i := fun j hj =>
      hconst j (hg ▸ hj)
    have hsweep : Sampling.sweep level d i (stop - i) =
        ((Sampling.sweep level (Sampling.sweep level d i (n + 1)).1 (i + (n + 1)) (stop - (i + (n + 1)))).1,
          (Sampling.sweep level d i (n + 1)).2 ++
            (Sampling.sweep level (Sampling.sweep level d i (n + 1)).1 (i + (n + 1))
              (stop - (i + (n + 1)))).2) := by
      rw [← Sampling.sweep_add, show n + 1 + (stop - (i + (n + 1))) = stop - i by omega]
    rw [hsweep, if_pos hlt]
    dsimp only
    cases hact : t.activeAt level i with
    | true =>
      -- no edges are left over from before: a run begins here
      have hedges : edges = [] := by
        by_contra hcon
        rw [hends hcon hlt] at hact
        cases hact
      subst hedges
      obtain ⟨hout, hnext⟩ := h.sweep_active (n + 1) fun j hj => (hmem j hj).trans hact
      rw [List.nil_append, ← hg] at hout hnext
      have hall : g.all (t.activeAt level) = true :=
        List.all_eq_true.2 fun j hj => (hconst j hj).trans hact
      have hlast : g.getLastD 0 = i + n := by
        rw [hg, List.range'_concat]
        simp
      have htail := ih hnext hrest fun _ hlt' =>
        (hg ▸ hturns).inactive_behind hrest hlt' ((hmem (i + n) (by simp)).trans hact)
      rw [hout, htail, List.filter_cons, if_pos hall, List.flatMap_cons]
      simp only [Settings.warningOf, Settings.findingsOf, hlast, List.nil_append, List.append_assoc]
      rfl
    | false =>
      obtain ⟨hout, hnext⟩ := h.sweep_inactive (Nat.succ_pos n) fun j hj => (hmem j hj).trans hact
      have hall : g.all (t.activeAt level) = false := by
        rw [hg, List.range'_succ]
        simp [hact]
      have htail := ih hnext hrest fun hcon => absurd rfl hcon
      rw [hout, htail, List.filter_cons, hall]
      simp [Settings.warningOf]

theorem sweep_start (d : Spi) (level : Nat → Nat → Bool) (first count : Nat) (hw : 0 < d.settings.wordSize) :
    (Sampling.sweep level d.start first count).2 = d.settings.meaning level first (first + count) := by
  have hgroups := (Pending.start d level first hw).sweep_groups
    (Turns.splitBy d.settings level first (first + count)) fun hne => absurd rfl hne
  rw [Nat.add_sub_cancel_left] at hgroups
  rw [hgroups, Settings.meaning, Settings.runs, Nat.add_sub_cancel_left]
  simp only [Settings.warningOf, ite_self, List.nil_append]

/-- A started decoder finds just what the samples mean, however they are cut into chunks. -/
theorem takeAll_start (d : Spi) (rate : Nat) {unitSize first : Nat} {cs : List Chunk}
    (hcut : Chunk.Contiguous unitSize first cs) (hw : 0 < d.settings.wordSize)
    (hc : ∀ c ∈ d.settings.channels, c < 8 * unitSize) :
    (takeAll Protocol.decode (Protocol.start d rate) cs).result =
      .ok (d.settings.meaning (fun i => unitBit (Chunk.joined cs) unitSize (i - first)) first
        (first + Chunk.count cs)) := by
  have hjoined := takeAll_joined hcut (Protocol.start d rate) hc
  rw [hjoined]
  exact congrArg Except.ok (sweep_start d _ first (Chunk.count cs) hw)

/-- A word of two bits that goes on over a cut, and a bit that the select line leaves alone. -/
theorem takeAll_start_cut_word :
    let d : Spi := ⟨⟨0, some 1, none, some 2, .mode0, 2, .activeLow⟩, none, true, .empty⟩
    let cs : List Chunk := [⟨4, #[4, 0, 3], 1⟩, ⟨7, #[0], 1⟩, ⟨8, #[], 1⟩, ⟨8, #[3, 2, 3, 4, 4], 1⟩]
    (takeAll Protocol.decode (Protocol.start d 1000) cs).result =
      .ok [⟨6, 9, mosiData, ["3"]⟩, ⟨10, 11, warning, ["Incomplete word: 1 of 2 bits"]⟩] := by
  intro d cs
  have hcut : Chunk.Contiguous 1 4 cs := ⟨rfl, rfl, rfl, rfl, rfl, rfl, rfl, rfl, rfl, rfl, rfl, rfl, trivial⟩
  rw [d.takeAll_start 1000 hcut (by decide) (by decide)]
  decide +kernel

end Spi

end LogicDecode
