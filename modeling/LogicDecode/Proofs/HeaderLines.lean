import LogicDecode.Capture.Load
import Mathlib.Control.Monad.Basic
import Mathlib.Logic.Relation

/-!
# What the lines of a header say

A line of a header says a value for one key or it says nothing, and of the lines of a key only the last one counts, even
if its value cannot be read (`Capture.readHeader_of_latest`). So what a header is read as depends on the last lines
of the keys alone, and lines of different keys can change places.
-/

namespace LogicDecode

section Texts
variable {mark key rest cs v : List Char} {m : Char}

theorem afterStart?_eq_some {start : List Char} : afterStart? start cs = some v ↔ cs = start ++ v := by
  induction start generalizing cs with
  | nil => simp [afterStart?, eq_comm]
  | cons s start ih =>
    cases cs with
    | nil => simp [afterStart?]
    | cons c cs =>
      rw [afterStart?]
      split
      · rename_i heq
        simp [ih, heq]
      · rename_i hne
        simp [Ne.symm hne]

theorem append_of_cutAux {part : List Char} (h : cutAux mark cs part = some (key, rest)) :
    part.reverse ++ cs = key ++ (mark ++ rest) := by
  induction cs generalizing part with
  | nil =>
    obtain ⟨_, hafter, hpair⟩ := Option.map_eq_some_iff.1 h
    cases hpair
    rw [afterStart?_eq_some.1 hafter]
  | cons c cs ih =>
    rw [cutAux] at h
    split at h
    · rename_i hafter
      cases h
      rw [afterStart?_eq_some.1 hafter]
    · simpa using ih h

theorem append_of_cut? (h : cut? mark cs = some (key, rest)) : cs = key ++ (mark ++ rest) := append_of_cutAux h

/-- A text is cut at a mark whose first character does not stand in front of it. -/
theorem cutAux_append {part : List Char} (hkey : m ∉ key) :
    cutAux (m :: mark) (key ++ (m :: mark ++ rest)) part = some (part.reverse ++ key, rest) := by
  induction key generalizing part with
  | nil =>
    have hafter : afterStart? (m :: mark) (m :: (mark ++ rest)) = some rest := afterStart?_eq_some.2 rfl
    simp only [List.nil_append, List.cons_append, cutAux, hafter, List.append_nil]
  | cons c key ih =>
    have hc : m ≠ c := fun h => hkey (h ▸ List.mem_cons_self ..)
    have hafter : afterStart? (m :: mark) (c :: (key ++ (m :: mark ++ rest))) = none := if_neg hc
    rw [List.cons_append, cutAux, hafter]
    have hrest : cutAux (m :: mark) (key ++ (m :: mark ++ rest)) (c :: part) =
        some ((c :: part).reverse ++ key, rest) := ih fun h => hkey (List.mem_cons_of_mem _ h)
    simpa using hrest

/-- A text without blanks is cut off at an equals sign between blanks. -/
theorem cut?_equals (rest : List Char) (hkey : ' ' ∉ key) :
    cut? " = ".toList (key ++ (" = ".toList ++ rest)) = some (key, rest) := by
  have hmark : " = ".toList = ' ' :: ['=', ' '] := by decide +kernel
  rw [hmark]
  exact cutAux_append hkey

/-- The text of a number has no blanks. -/
theorem blank_notMem_of_natural? {bound n : Nat} (h : natural? bound cs = some n) : ' ' ∉ cs := by
  intro hmem
  unfold natural? at h
  extract_lets ds at h
  have hds : ' ' ∈ ds := by
    unfold ds
    split
    · rcases List.mem_cons.1 hmem with hplus | hrest
      · cases hplus
      · exact hrest
    · exact hmem
  have hall : ds.all Char.isDigit = false := List.all_eq_false.2 ⟨_, hds, by decide⟩
  simp [hall] at h

end Texts

/-- What a line of a header may say a value for. -/
inductive HeaderKey where
  | probes
  | rate
  | samples
  | blocks
  | name (probe : Nat)
deriving Repr, DecidableEq

namespace HeaderKey

/-- What the lines of a key begin with. -/
def start : HeaderKey → List Char
  | probes => "total probes = ".toList
  | rate => "samplerate = ".toList
  | samples => "total samples = ".toList
  | blocks => "total blocks = ".toList
  | name _ => "probe".toList

/-- A line says a value for a key. A number of a probe may be spelled in several ways, and the first ` = ` behind it
ends it. -/
def Says (k : HeaderKey) (line value : List Char) : Prop :=
  match k with
  | name probe => ∃ number, natural? wordBound number = some probe ∧
    line = k.start ++ (number ++ (" = ".toList ++ value))
  | k => line = k.start ++ value

/-- The value that a line says for a key. -/
def value? (k : HeaderKey) (line : List Char) : Option (List Char) :=
  match k with
  | name probe => do
    let (number, value) ← cut? " = ".toList (← afterStart? k.start line)
    if natural? wordBound number = some probe then some value else none
  | k => afterStart? k.start line

variable {k k' : HeaderKey} {line v v' : List Char}

theorem value?_eq_some : k.value? line = some v ↔ k.Says line v := by
  cases k with
  | name probe =>
    simp only [value?, Says, Option.bind_eq_bind, Option.bind_eq_some_iff, afterStart?_eq_some]
    constructor
    · rintro ⟨rest, rfl, ⟨number, value⟩, hcut, hvalue⟩
      split at hvalue
      · rename_i hnumber
        cases hvalue
        exact ⟨number, hnumber, by rw [append_of_cut? hcut]⟩
      · cases hvalue
    · rintro ⟨number, hnumber, rfl⟩
      exact ⟨_, rfl, (number, v), cut?_equals _ (blank_notMem_of_natural? hnumber), if_pos hnumber⟩
  | probes => exact afterStart?_eq_some
  | rate => exact afterStart?_eq_some
  | samples => exact afterStart?_eq_some
  | blocks => exact afterStart?_eq_some

theorem line_begins (h : k.Says line v) : k.start <+: line := by
  cases k with
  | name probe =>
    obtain ⟨number, -, rfl⟩ := h
    exact List.prefix_append ..
  | probes => exact ⟨v, h.symm⟩
  | rate => exact ⟨v, h.symm⟩
  | samples => exact ⟨v, h.symm⟩
  | blocks => exact ⟨v, h.symm⟩

/-- Keys whose lines begin in the same way: the names of all probes do. -/
def kind : HeaderKey → HeaderKey
  | name _ => name 0
  | k => k

def kinds : List HeaderKey := [probes, rate, samples, blocks, name 0]

theorem kind_mem (k : HeaderKey) : k.kind ∈ kinds ∧ k.kind.start = k.start := by
  cases k <;> exact ⟨by simp [kind, kinds], rfl⟩

theorem eq_or_names (h : k.kind = k'.kind) : k = k' ∨ ∃ n n', k = name n ∧ k' = name n' := by
  cases k <;> cases k' <;> simp_all [kind]

/-- What the lines of a key begin with is not the beginning of the lines of another key. -/
theorem eq_of_begins : ∀ k ∈ kinds, ∀ k' ∈ kinds, k.start <+: k'.start → k = k' := by decide +kernel

/-- A line says one value at most. -/
theorem Says.unique (h : k.Says line v) (h' : k'.Says line v') : k = k' ∧ v = v' := by
  have hkind : k.kind = k'.kind := by
    obtain ⟨hmem, hstart⟩ := kind_mem k
    obtain ⟨hmem', hstart'⟩ := kind_mem k'
    rcases List.prefix_or_prefix_of_prefix (line_begins h) (line_begins h') with hle | hle
    · exact eq_of_begins _ hmem _ hmem' (by rwa [hstart, hstart'])
    · exact (eq_of_begins _ hmem' _ hmem (by rwa [hstart, hstart'])).symm
  rcases eq_or_names hkind with rfl | ⟨n, n', rfl, rfl⟩
  · exact ⟨rfl, Option.some.inj ((value?_eq_some.2 h).symm.trans (value?_eq_some.2 h'))⟩
  · obtain ⟨number, hnumber, rfl⟩ := h
    obtain ⟨number', hnumber', hline⟩ := h'
    -- both numbers end at the first ` = `
    have hrest := List.append_cancel_left hline
    have hcut := cut?_equals v (blank_notMem_of_natural? hnumber)
    have hcut' := cut?_equals v' (blank_notMem_of_natural? hnumber')
    have hpair : (number, v) = (number', v') := Option.some.inj (hcut.symm.trans ((congrArg _ hrest).trans hcut'))
    cases hpair
    rw [hnumber] at hnumber'
    cases hnumber'
    exact ⟨rfl, rfl⟩

/-- What is entered for a value of a key. -/
def entry : HeaderKey → List Char → HeaderLine
  | probes, v => .probes (natural? wordBound v)
  | rate, v => .rate v
  | samples, v => .samples (natural? wordBound v)
  | blocks, v => .blocks (natural? wordBound v)
  | name probe, v => .name probe v

/-- A name is found by its mark before its beginning is looked at. -/
theorem cut?_of_name {probe : Nat} (h : (name probe).Says line v) : ∃ key, cut? " = ".toList line = some (key, v) ∧
    (afterStart? "probe".toList key).bind (natural? wordBound) = some probe := by
  obtain ⟨number, hnumber, rfl⟩ := h
  have hkey : ' ' ∉ "probe".toList ++ number := by
    rw [List.mem_append, not_or]
    exact ⟨by decide +kernel, blank_notMem_of_natural? hnumber⟩
  refine ⟨"probe".toList ++ number, ?_, ?_⟩
  · refine Eq.trans (congrArg _ ?_) (cut?_equals _ hkey)
    exact (List.append_assoc ..).symm
  · rw [afterStart?_eq_some.2 rfl]
    exact hnumber

/-- What is entered for a line is what the line says for a key. -/
theorem ofText_cases (line : List Char) : (∃ k v, Says k line v ∧ HeaderLine.ofText line = k.entry v) ∨
    (∀ k v, ¬ Says k line v) ∧ HeaderLine.ofText line = .other := by
  unfold HeaderLine.ofText
  split
  · rename_i v hv
    exact .inl ⟨probes, v, value?_eq_some.1 hv, rfl⟩
  rename_i hprobes
  split
  · rename_i v hv
    exact .inl ⟨rate, v, value?_eq_some.1 hv, rfl⟩
  rename_i hrate
  split
  · rename_i v hv
    exact .inl ⟨samples, v, value?_eq_some.1 hv, rfl⟩
  rename_i hsamples
  split
  · rename_i v hv
    exact .inl ⟨blocks, v, value?_eq_some.1 hv, rfl⟩
  rename_i hblocks
  have hothers : (∀ n v, ¬ (name n).Says line v) → ∀ k v, ¬ Says k line v := by
    intro hnames k v h
    cases k with
    | probes => exact hprobes v (value?_eq_some.2 h)
    | rate => exact hrate v (value?_eq_some.2 h)
    | samples => exact hsamples v (value?_eq_some.2 h)
    | blocks => exact hblocks v (value?_eq_some.2 h)
    | name n => exact hnames n v h
  split
  · rename_i hcut
    refine .inr ⟨hothers fun n v h => ?_, rfl⟩
    obtain ⟨key, hkey, -⟩ := cut?_of_name h
    rw [hcut] at hkey
    cases hkey
  · rename_i key v hcut
    split
    · rename_i probe hprobe
      obtain ⟨number, hkey, hnumber⟩ := Option.bind_eq_some_iff.1 hprobe
      refine .inl ⟨name probe, v, ⟨number, hnumber, ?_⟩, rfl⟩
      rw [append_of_cut? hcut, afterStart?_eq_some.1 hkey, List.append_assoc]
      rfl
    · rename_i hprobe
      refine .inr ⟨hothers fun n w h => ?_, rfl⟩
      obtain ⟨key', hkey, hnumber⟩ := cut?_of_name h
      rw [hcut] at hkey
      cases hkey
      rw [hprobe] at hnumber
      cases hnumber

/-- The last value that some lines say for a key. -/
def latest? (k : HeaderKey) (lines : List (List Char)) : Option (List Char) := lines.reverse.findSome? k.value?

theorem value?_eq_none (h : ∀ v, ¬ k.Says line v) : k.value? line = none :=
  Option.eq_none_iff_forall_ne_some.2 fun v hv => h v (value?_eq_some.1 hv)

/-- The last value for a key is said by a line behind which no line says one. -/
theorem latest?_eq_some {lines : List (List Char)} : k.latest? lines = some v ↔ ∃ before line after,
    lines = before ++ line :: after ∧ k.Says line v ∧ ∀ line' ∈ after, ∀ v', ¬ k.Says line' v' := by
  rw [latest?, List.findSome?_eq_some_iff]
  constructor
  · rintro ⟨after, line, before, hlines, hvalue, hnone⟩
    refine ⟨before.reverse, line, after.reverse, ?_, value?_eq_some.1 hvalue, fun line' hmem v' hsays => ?_⟩
    · simpa using congrArg List.reverse hlines
    · have hline := hnone line' (List.mem_reverse.1 hmem)
      rw [value?_eq_some.2 hsays] at hline
      cases hline
  · rintro ⟨before, line, after, rfl, hsays, hnone⟩
    exact ⟨after.reverse, line, before.reverse, by simp, value?_eq_some.2 hsays, fun line' hmem =>
      value?_eq_none (hnone line' (List.mem_reverse.1 hmem))⟩

theorem latest?_singleton : k.latest? [line] = k.value? line := List.findSome?_singleton

theorem latest?_append {before after : List (List Char)} :
    k.latest? (before ++ after) = (k.latest? after).or (k.latest? before) := by
  rw [latest?, List.reverse_append, List.findSome?_append]
  rfl

theorem latest?_cons {lines : List (List Char)} :
    k.latest? (line :: lines) = (k.latest? lines).or (k.value? line) := by
  rw [← List.singleton_append, latest?_append, latest?_singleton]

theorem latest?_snoc {lines : List (List Char)} :
    k.latest? (lines ++ [line]) = (k.value? line).or (k.latest? lines) := by
  rw [latest?_append, latest?_singleton]

theorem latest?_of_said {lines : List (List Char)} (h : k.Says line v) :
    k'.latest? (lines ++ [line]) = if k' = k then some v else k'.latest? lines := by
  rw [latest?_snoc]
  split
  · rename_i heq
    rw [heq, value?_eq_some.2 h, Option.some_or]
  · rename_i hne
    rw [value?_eq_none fun w hw => hne (hw.unique h).1, Option.none_or]

/-- The last number that some lines say for a key, none if that one cannot be read. -/
def number? (k : HeaderKey) (lines : List (List Char)) : Option Nat := (k.latest? lines).bind (natural? wordBound)

end HeaderKey

namespace HeaderFields
variable {f : HeaderFields} {lines : List (List Char)}

/-- The values are the last ones that some lines say. -/
structure Reads (f : HeaderFields) (lines : List (List Char)) : Prop where
  probes : f.probes = HeaderKey.probes.number? lines
  rate : f.rate = HeaderKey.rate.latest? lines
  samples : f.samples = HeaderKey.samples.number? lines
  blocks : f.blocks = HeaderKey.blocks.number? lines
  names : ∀ n, f.names.lookup n = (HeaderKey.name n).latest? lines

theorem reads_empty : empty.Reads [] := ⟨rfl, rfl, rfl, rfl, fun _ => rfl⟩

theorem Reads.snoc (h : f.Reads lines) (line : List Char) : (f.enter (.ofText line)).Reads (lines ++ [line]) := by
  rcases HeaderKey.ofText_cases line with ⟨k, v, hsays, hline⟩ | ⟨hnone, hline⟩
  · have hlatest : ∀ k', HeaderKey.latest? k' (lines ++ [line]) = if k' = k then some v else k'.latest? lines :=
      fun k' => HeaderKey.latest?_of_said hsays
    rw [hline]
    cases k <;> refine ⟨?_, ?_, ?_, ?_, fun n => ?_⟩ <;>
      simp [HeaderKey.entry, enter, HeaderKey.number?, hlatest, h.probes, h.rate, h.samples, h.blocks, h.names,
        List.lookup_cons]
    rename_i probe
    by_cases hn : n = probe
    · simp [hn]
    · simp [hn, beq_eq_false_iff_ne.2 hn]
  · have hlatest : ∀ k : HeaderKey, k.latest? (lines ++ [line]) = k.latest? lines := by
      intro k
      rw [HeaderKey.latest?_snoc, HeaderKey.value?_eq_none (hnone k), Option.none_or]
    rw [hline]
    refine ⟨?_, ?_, ?_, ?_, fun n => ?_⟩ <;>
      simp [enter, HeaderKey.number?, hlatest, h.probes, h.rate, h.samples, h.blocks, h.names]

theorem Reads.foldl (h : f.Reads lines) (more : List (List Char)) :
    ((more.map HeaderLine.ofText).foldl enter f).Reads (lines ++ more) := by
  induction more generalizing f lines with
  | nil => rwa [List.append_nil]
  | cons line more ih =>
    rw [← List.singleton_append, ← List.append_assoc]
    exact ih (h.snoc line)

end HeaderFields

/-- The lines of a text, without the blanks around them. -/
def headerLines (text : List Char) : List (List Char) := (splitAt (· == '\n') text).map trimBlanks

theorem HeaderFields.reads_ofText (text : List Char) : (ofText text).Reads (headerLines text) := by
  have h := reads_empty.foldl (headerLines text)
  rwa [List.nil_append, headerLines, List.map_map] at h

namespace HeaderKey
variable {lines lines' : List (List Char)}

/-- One change of lines: two that stand beside each other and do not say values for the same key change places, or one
that says nothing is put in. -/
inductive Rearranges : List (List Char) → List (List Char) → Prop where
  | swap (before after : List (List Char)) {line line' : List Char}
      (apart : ∀ k v v', Says k line v → ¬ Says k line' v') :
      Rearranges (before ++ line :: line' :: after) (before ++ line' :: line :: after)
  | insert (before after : List (List Char)) {line : List Char} (silent : ∀ k v, ¬ Says k line v) :
      Rearranges (before ++ after) (before ++ line :: after)

theorem Rearranges.latest?_eq (h : Rearranges lines lines') (k : HeaderKey) : k.latest? lines' = k.latest? lines := by
  cases h with
  | swap before after apart =>
    rename_i line line'
    simp only [latest?_append, latest?_cons]
    cases hv : k.value? line with
    | none => simp
    | some v =>
      have hv' : k.value? line' = none := value?_eq_none fun w => apart k v w (value?_eq_some.1 hv)
      simp [hv']
  | insert before after silent =>
    rw [latest?_append, latest?_append, latest?_cons, value?_eq_none (silent k), Option.or_none]

theorem latest?_eq_of_rearranged (h : Relation.EqvGen Rearranges lines lines') (k : HeaderKey) :
    k.latest? lines' = k.latest? lines := by
  induction h with
  | rel _ _ hstep => exact hstep.latest?_eq k
  | refl => rfl
  | symm _ _ _ ih => exact ih.symm
  | trans _ _ _ _ _ ih ih' => exact ih'.trans ih

/-- Empty lines and section lines say nothing. -/
theorem not_says_of_section {line v : List Char} {k : HeaderKey} (h : line = [] ∨ ∃ rest, line = '[' :: rest) :
    ¬ Says k line v := by
  intro hsays
  have hhead : ∀ k ∈ kinds, k.start.head? ≠ none ∧ k.start.head? ≠ some '[' := by decide +kernel
  obtain ⟨hmem, hstart⟩ := kind_mem k
  obtain ⟨hsome, hletter⟩ := hhead _ hmem
  rw [hstart] at hsome hletter
  obtain ⟨rest, hline⟩ := line_begins hsays
  have hsame : line.head? = k.start.head? := by
    rw [← hline, List.head?_append, Option.or_of_isSome (Option.isSome_iff_ne_none.2 hsome)]
  rcases h with rfl | ⟨more, rfl⟩
  · exact hsome hsame.symm
  · exact hletter hsame.symm

/-- The values that a header cannot do without, in the order in which they are asked for, and whether some lines have
them. -/
def required (lines : List (List Char)) : List (String × Bool) :=
  [("total probes", (probes.number? lines).isSome), ("samplerate", (rate.latest? lines).isSome),
    ("total samples", (samples.number? lines).isSome), ("total blocks", (blocks.number? lines).isSome)]

end HeaderKey

namespace Header
variable {f g : HeaderFields} {lines lines' : List (List Char)} {firstBlock : Except CaptureError Nat} {h : Header}

/-- When no value is missing, what else may be wrong is told in other words. -/
theorem ofFields_cases {probes samples blocks : Nat} {text : List Char} (hprobes : f.probes = some probes)
    (hrate : f.rate = some text) (hsamples : f.samples = some samples) (hblocks : f.blocks = some blocks)
    (hfirst : ∀ field, firstBlock ≠ .error (.missingField field)) :
    (∃ rate size, ofFields f firstBlock =
      .ok ⟨probes, String.ofList text, rate, samples, blocks, size, (List.range probes).map f.nameOf⟩) ∨
    ∃ e, ofFields f firstBlock = .error e ∧ ∀ field, e ≠ .refused (.missingField field) := by
  unfold ofFields
  rw [hprobes, hrate, hsamples, hblocks]
  simp only [needed, Outcome.accept, bind, Except.bind]
  by_cases hzero : probes = 0
  · rw [if_pos hzero]
    exact .inr ⟨_, rfl, nofun⟩
  rw [if_neg hzero]
  cases sampleRate? text with
  | none => exact .inr ⟨_, rfl, nofun⟩
  | some rate =>
    -- the first block is asked for only if there are blocks
    by_cases hnone : blocks = 0
    · by_cases hstorage : storageBound ≤ 24 * probes
      · exact .inr ⟨.fault .allocation, by simp only [hnone, hstorage, if_true, pure, Except.pure]; rfl, nofun⟩
      · exact .inl ⟨rate, 0, by simp only [hnone, hstorage, if_true, if_false, pure, Except.pure]⟩
    · cases firstBlock with
      | error e =>
        exact .inr ⟨.refused e, by simp only [hnone, if_false, Functor.map, Except.map], fun field he =>
          hfirst field (by cases he; rfl)⟩
      | ok size =>
        by_cases hstorage : storageBound ≤ 24 * probes
        · exact .inr ⟨.fault .allocation, by
            simp only [hnone, hstorage, if_true, if_false, Functor.map, Except.map]; rfl, nofun⟩
        · exact .inl ⟨rate, size * 8, by
            simp only [hnone, hstorage, if_false, Functor.map, Except.map, pure, Except.pure]⟩

theorem missing_iff (hf : f.Reads lines) (hfirst : ∀ field, firstBlock ≠ .error (.missingField field))
    {field : String} : ofFields f firstBlock = .error (.refused (.missingField field)) ↔
      (HeaderKey.required lines).find? (fun p => !p.2) = some (field, false) := by
  unfold HeaderKey.required
  rw [← hf.probes, ← hf.rate, ← hf.samples, ← hf.blocks]
  cases hprobes : f.probes with
  | none => simp [ofFields, hprobes, needed, Outcome.accept, bind, Except.bind]
  | some probes =>
  cases hrate : f.rate with
  | none => simp [ofFields, hprobes, hrate, needed, Outcome.accept, bind, Except.bind]
  | some text =>
  cases hsamples : f.samples with
  | none => simp [ofFields, hprobes, hrate, hsamples, needed, Outcome.accept, bind, Except.bind]
  | some samples =>
  cases hblocks : f.blocks with
  | none => simp [ofFields, hprobes, hrate, hsamples, hblocks, needed, Outcome.accept, bind, Except.bind]
  | some blocks =>
    refine iff_of_false (fun hmissing => ?_) (by simp)
    rcases ofFields_cases hprobes hrate hsamples hblocks hfirst with ⟨rate, size, hok⟩ | ⟨e, he, hother⟩
    · rw [hok] at hmissing
      cases hmissing
    · rw [he] at hmissing
      exact hother field (Except.error.inj hmissing)

theorem ofFields_congr (hf : f.Reads lines) (hg : g.Reads lines')
    (hprobes : HeaderKey.probes.number? lines' = HeaderKey.probes.number? lines)
    (hrate : HeaderKey.rate.latest? lines' = HeaderKey.rate.latest? lines)
    (hsamples : HeaderKey.samples.number? lines' = HeaderKey.samples.number? lines)
    (hblocks : HeaderKey.blocks.number? lines' = HeaderKey.blocks.number? lines)
    (hnames : ∀ count, HeaderKey.probes.number? lines = some count → ∀ n < count,
      (HeaderKey.name n).latest? lines' = (HeaderKey.name n).latest? lines) :
    ofFields g firstBlock = ofFields f firstBlock := by
  unfold ofFields
  rw [hf.probes, hf.rate, hf.samples, hf.blocks, hg.probes, hg.rate, hg.samples, hg.blocks, hprobes, hrate, hsamples,
    hblocks]
  cases hcount : HeaderKey.probes.number? lines with
  | none => rfl
  | some count =>
    have hmap : (List.range count).map g.nameOf = (List.range count).map f.nameOf := by
      refine List.map_congr_left fun n hn => ?_
      rw [HeaderFields.nameOf, HeaderFields.nameOf, hf.names, hg.names, hnames count hcount n (List.mem_range.1 hn)]
    simp only [needed, Outcome.accept, bind, Except.bind, hmap]

theorem fields_of_ofFields (hf : f.Reads lines) (hfirst : ∀ field, firstBlock ≠ .error (.missingField field))
    (hh : ofFields f firstBlock = .ok h) : HeaderKey.probes.number? lines = some h.probes ∧
      (HeaderKey.rate.latest? lines).map String.ofList = some h.rateText ∧
      HeaderKey.samples.number? lines = some h.samples ∧ HeaderKey.blocks.number? lines = some h.blocks ∧
      h.names = (List.range h.probes).map f.nameOf := by
  have hpresent : (HeaderKey.required lines).find? (fun p => !p.2) = none := by
    refine Option.eq_none_iff_forall_ne_some.2 fun ⟨field, present⟩ hmissing => ?_
    obtain rfl : present = false := by simpa using List.find?_some hmissing
    rw [(missing_iff hf hfirst).2 hmissing] at hh
    cases hh
  simp only [HeaderKey.required, ← hf.probes, ← hf.rate, ← hf.samples, ← hf.blocks, List.find?_eq_none,
    List.forall_mem_cons, Bool.not_eq_true', Bool.not_eq_false, Option.isSome_iff_exists] at hpresent
  obtain ⟨⟨probes, hprobes⟩, ⟨text, hrate⟩, ⟨samples, hsamples⟩, ⟨blocks, hblocks⟩, -⟩ := hpresent
  rw [← hf.probes, ← hf.rate, ← hf.samples, ← hf.blocks, hprobes, hrate, hsamples, hblocks]
  rcases ofFields_cases hprobes hrate hsamples hblocks hfirst with ⟨rate, size, hok⟩ | ⟨e, he, -⟩
  · rw [hok] at hh
    cases hh
    exact ⟨rfl, rfl, rfl, rfl, rfl⟩
  · rw [he] at hh
    cases hh

end Header

namespace Capture
variable {a : Archive} {text : List Char}

theorem first_ne_missing (field : String) : (block a 0 0).map Array.size ≠ .error (.missingField field) := by
  intro h
  cases hblock : block a 0 0 with
  | ok data => rw [hblock] at h; cases h
  | error e =>
    rw [hblock] at h
    obtain rfl : e = .missingField field := Except.error.inj h
    unfold block at hblock
    split at hblock <;> cases hblock

theorem readHeader_eq (htext : headerText a = .ok text) :
    readHeader a = Header.ofFields (.ofText text) ((block a 0 0).map Array.size) := by
  unfold readHeader
  rw [htext]
  rfl

/-- A header is read from the last lines of its keys, whatever else it holds. If one of the four values is missing, the
first one in their order is told, and a value whose last line cannot be read is missing. Otherwise the values and the
names are those that the last lines say. Another header of the same last lines, so also one whose lines are rearranged,
is read in the same way. -/
theorem readHeader_of_latest (htext : headerText a = .ok text) :
    let lines := headerLines text
    (∀ k v, HeaderKey.latest? k lines = some v ↔ ∃ before line after, lines = before ++ line :: after ∧
      HeaderKey.Says k line v ∧ ∀ line' ∈ after, ∀ v', ¬ HeaderKey.Says k line' v') ∧
    (∀ field, readHeader a = .error (.refused (.missingField field)) ↔
      (HeaderKey.required lines).find? (fun p => !p.2) = some (field, false)) ∧
    (∀ h, readHeader a = .ok h → HeaderKey.probes.number? lines = some h.probes ∧
      (HeaderKey.rate.latest? lines).map String.ofList = some h.rateText ∧
      HeaderKey.samples.number? lines = some h.samples ∧ HeaderKey.blocks.number? lines = some h.blocks ∧
      h.names = (List.range h.probes).map fun n =>
        (((HeaderKey.name n).latest? lines).map String.ofList).getD s!"Probe{n}") ∧
    (∀ a' text', headerText a' = .ok text' → block a' 0 0 = block a 0 0 →
      (∀ k ∈ [HeaderKey.probes, .rate, .samples, .blocks], k.latest? (headerLines text') = k.latest? lines) →
      (∀ count, HeaderKey.probes.number? lines = some count → ∀ n < count,
        (HeaderKey.name n).latest? (headerLines text') = (HeaderKey.name n).latest? lines) →
      readHeader a' = readHeader a) ∧
    (∀ a' text', headerText a' = .ok text' → block a' 0 0 = block a 0 0 →
      Relation.EqvGen HeaderKey.Rearranges lines (headerLines text') → readHeader a' = readHeader a) ∧
    ∀ line, (line = [] ∨ ∃ rest, line = '[' :: rest) → ∀ k v, ¬ HeaderKey.Says k line v := by
  intro lines
  have hreads := HeaderFields.reads_ofText text
  have hsame : ∀ a' text', headerText a' = .ok text' → block a' 0 0 = block a 0 0 →
      (∀ k ∈ [HeaderKey.probes, .rate, .samples, .blocks], k.latest? (headerLines text') = k.latest? lines) →
      (∀ count, HeaderKey.probes.number? lines = some count → ∀ n < count,
        (HeaderKey.name n).latest? (headerLines text') = (HeaderKey.name n).latest? lines) →
      readHeader a' = readHeader a := by
    intro a' text' htext' hblock hkeys hnames
    simp only [List.forall_mem_cons] at hkeys
    obtain ⟨hprobes, hrate, hsamples, hblocks, -⟩ := hkeys
    rw [readHeader_eq htext, readHeader_eq htext', hblock]
    exact Header.ofFields_congr hreads (HeaderFields.reads_ofText text') (congrArg (Option.bind · _) hprobes) hrate
      (congrArg (Option.bind · _) hsamples) (congrArg (Option.bind · _) hblocks) hnames
  refine ⟨fun k v => HeaderKey.latest?_eq_some, fun field => ?_, fun h hh => ?_, hsame,
    fun a' text' htext' hblock hsteps => ?_, fun line hline k v => HeaderKey.not_says_of_section hline⟩
  · rw [readHeader_eq htext]
    exact Header.missing_iff hreads first_ne_missing
  · rw [readHeader_eq htext] at hh
    obtain ⟨hprobes, hrate, hsamples, hblocks, hnames⟩ := Header.fields_of_ofFields hreads first_ne_missing hh
    refine ⟨hprobes, hrate, hsamples, hblocks, hnames.trans (List.map_congr_left fun n _ => ?_)⟩
    rw [HeaderFields.nameOf, hreads.names]
    cases HeaderKey.latest? (.name n) (headerLines text) <;> rfl
  · have hlatest := HeaderKey.latest?_eq_of_rearranged hsteps
    exact hsame a' text' htext' hblock (fun k _ => hlatest k) fun _ _ n _ => hlatest _

/-- The number of a probe is spelled in two ways, and a name holds an equals sign. When the last line of a key cannot be
read, its value is missing. -/
theorem readHeader_of_latest_twice :
    let text := "probe1 = C\nsamplerate = 1 Hz\nprobe+01 = A = B\ntotal samples = 0\ntotal blocks = 0\ntotal probes = 2"
    let erased := "total probes = 2\ntotal probes = x\nsamplerate = 1 Hz"
    let a : Archive := .ofList [("header", text.toUTF8.data)]
    let b : Archive := .ofList [("header", erased.toUTF8.data)]
    headerText a = .ok text.toList ∧ (∃ h, readHeader a = .ok h ∧ h.probes = 2 ∧ h.names = ["Probe0", "A = B"]) ∧
      headerText b = .ok erased.toList ∧ readHeader b = .error (.refused (.missingField "total probes")) := by
  intro text erased a b
  have htext : headerText a = .ok text.toList := by decide +kernel
  have herased : headerText b = .ok erased.toList := by decide +kernel
  have hloads : (readHeader a).map (·.probes) = .ok 2 := by decide +kernel
  have hnames : (List.range 2).map (fun n =>
      (((HeaderKey.name n).latest? (headerLines text.toList)).map String.ofList).getD s!"Probe{n}") =
        ["Probe0", "A = B"] := by decide +kernel
  have hmissing : (HeaderKey.required (headerLines erased.toList)).find? (fun p => !p.2) =
      some ("total probes", false) := by decide +kernel
  refine ⟨htext, ?_, herased, ((readHeader_of_latest herased).2.1 _).2 hmissing⟩
  cases hh : readHeader a with
  | error e => rw [hh] at hloads; cases hloads
  | ok h =>
    rw [hh] at hloads
    have hprobes : h.probes = 2 := Except.ok.inj hloads
    obtain ⟨-, -, -, -, hlist⟩ := (readHeader_of_latest htext).2.2.1 h hh
    rw [hprobes] at hlist
    exact ⟨h, rfl, hprobes, hlist.trans hnames⟩

end Capture
end LogicDecode
