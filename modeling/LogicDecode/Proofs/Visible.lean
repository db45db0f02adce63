import LogicDecode.CommandLine.Report
import LogicDecode.Proofs.Clearing
import LogicDecode.Proofs.RangeQueries
import LogicDecode.Proofs.RowTables
import LogicDecode.Trial.Script

/-!
# What is visible of a run

The visible rows are read off the chain as it is now, the tracks were made from the chain at the launch. As long as
the chain is not edited but for which stages are shown, both come from the same profiles: a visible row has a track,
and a track with marks in it belongs to a row that some stage brings along (`Stack.visible_of_run`). The default
row of a stage with declared rows has to be looked at closely, since it is visible only with marks in it.

A mark out of order ends a run but may leave its class noted, so `Sorts` goes by the rows of an output alone.
-/

namespace LogicDecode

namespace RowTable

theorem nodup_keys_eraseDups (rows : List Row) : (rows.eraseDups.map Row.key).Nodup := by
  induction rows using List.reverseRecOn with
  | nil => exact .nil
  | append_singleton rows r ih =>
    rw [eraseDups_snoc]
    split
    · exact ih
    · rename_i hnew
      rw [contains_iff] at hnew
      rw [List.map_append]
      refine List.nodup_append.2 ⟨ih, by simp, ?_⟩
      rintro a ha b hb rfl
      rw [List.map_singleton, List.mem_singleton] at hb
      exact hnew (hb ▸ ha)

theorem mem_keys_ofProfiles {ps : List Profile} {k : RowKey} :
    k ∈ (ofProfiles ps).keys ↔ ∃ p ∈ ps, k ∈ p.ownRows.map Row.key := by
  rw [keys, (Tables.ofProfiles ps).rows, key_mem_eraseDups, List.map_flatMap, List.mem_flatMap]

end RowTable

theorem map_set_of_getElem? {α β : Type} {f : α → β} {xs : List α} {i : Nat} {x y : α} (h : xs[i]? = some x)
    (hf : f y = f x) : (xs.set i y).map f = xs.map f := by
  obtain ⟨hi, rfl⟩ := List.getElem?_eq_some_iff.1 h
  have hlt : i < (xs.map f).length := by rwa [List.length_map]
  have hself : (xs.map f).set i (xs.map f)[i] = xs.map f := List.set_getElem_self hlt
  rwa [List.getElem_map, ← hf, ← List.map_set] at hself

theorem le_foldl_max {xs : List Nat} {a n : Nat} (h : a ∈ n :: xs) : a ≤ xs.foldl max n := by
  induction xs generalizing n a with
  | nil => exact Nat.le_of_eq (List.mem_singleton.1 h)
  | cons x xs ih =>
    rw [List.foldl_cons]
    rcases List.mem_cons.1 h with rfl | h
    · exact Nat.le_trans (Nat.le_max_left a x) (ih (List.mem_cons_self ..))
    rcases List.mem_cons.1 h with rfl | h
    · exact Nat.le_trans (Nat.le_max_right n a) (ih (List.mem_cons_self ..))
    · exact ih (List.mem_cons_of_mem _ h)

theorem Track.isEmpty_ofMarks_of_mem {ms : List Mark} {m : Mark} (h : m ∈ ms) : (ofMarks ms).isEmpty = false := by
  cases ms with
  | nil => cases h
  | cons => rfl

/-- An output has the rows of one that was given some marks, which all fit. -/
structure Sorts (t : RowTable) (ms : List Mark) (o : Output) : Prop where
  fileable : t.Fileable ms
  like : ∃ period o', HoldsMarks t period ms o' ∧ SameRows o o'

namespace SameRows

/-- What is at fault about a mark leaves the rows as they are. -/
theorem of_fault {o : Output} {m : Mark} {f : Fault} (h : (o.store m).result = .error f) :
    SameRows (o.store m).output o := by
  unfold Output.store at h ⊢
  cases hc : o.table.classify m.decoder m.cls with
  | none => exact .refl o
  | some found =>
    obtain ⟨row, routing⟩ := found
    rw [hc] at h
    dsimp only at h ⊢
    split at h
    · cases h
    · exact noteUnlisted o m row routing
    · exact noteUnlisted o m row routing

end SameRows

namespace Sorts
variable {t : RowTable} {ms : List Mark} {o o' : Output}

theorem congr (h : Sorts t ms o) (hrows : SameRows o' o) : Sorts t ms o' := by
  obtain ⟨period, o₀, hholds, hlike⟩ := h.like
  exact ⟨h.fileable, period, o₀, hholds, hrows.trans hlike⟩

theorem tracks (h : Sorts t ms o) : o.tracks = t.rows.map fun r => (r.key, Track.ofMarks (t.shown r.key ms)) := by
  obtain ⟨period, o₀, hholds, hlike⟩ := h.like
  exact hlike.tracks.trans hholds.tracks

theorem track? (h : Sorts t ms o) {r : Row} (hr : r.key ∈ t.keys) :
    o.track? r = some (.ofMarks (t.shown r.key ms)) := by
  obtain ⟨period, o₀, hholds, hlike⟩ := h.like
  rw [← hholds.track? hr, Output.track?, hlike.tracks]
  rfl

theorem perm (h : Sorts t ms o) (ht : t.Enters) : (o.tracks.flatMap fun p => p.2.marks.toList).Perm ms := by
  obtain ⟨period, o₀, hholds, hlike⟩ := h.like
  rw [hlike.tracks, List.flatMap]
  exact hholds.perm ht h.fileable.known

/-- Of marks that are stored until one is at fault, those in front of it come in. -/
theorem storeAll (h : Sorts t ms o) (ht : t.Enters) (more : List Mark) (b : Broadcast) (log : List LogEntry) :
    ∃ taken, Sorts t (ms ++ taken) (Stack.storeAll more o b log).1 := by
  induction more generalizing ms o b log with
  | nil => exact ⟨[], by rwa [List.append_nil]⟩
  | cons m rest ih =>
    cases hr : (o.store m).result with
    | error f =>
      rw [storeAll_cons_fault hr]
      refine ⟨[], ?_⟩
      rw [List.append_nil]
      exact h.congr (.of_fault hr)
    | ok tell =>
      obtain ⟨period, o₀, hholds, hlike⟩ := h.like
      obtain ⟨hsame, ⟨_, tell₀, -, hr₀⟩ | ⟨f, hf, -⟩⟩ := hlike.store m
      · have hfileable := hholds.of_store h.fileable ht hr₀
        obtain ⟨o₁, new, hstore, -, hholds₁⟩ := hholds.store ht (hfileable.known m (by simp)) hfileable.order.le
        rw [hstore] at hsame
        obtain ⟨taken, hrest⟩ := ih ⟨hfileable, period, o₁, hholds₁, hsame⟩ (if tell then b.send .marks else b)
          (log ++ (o.store m).log)
        rw [storeAll_cons hr]
        exact ⟨m :: taken, by rwa [List.append_cons]⟩
      · cases hr.symm.trans hf

end Sorts

namespace Stack
variable {ε : Type}

theorem addRows_eraseDups (own more : List Row) : addRows own.eraseDups more = (own ++ more).eraseDups := by
  induction more generalizing own with
  | nil => rw [List.append_nil]; rfl
  | cons r more ih =>
    rw [List.append_cons, ← ih, eraseDups_snoc]
    rfl

theorem visibleRows_eq (t : Stack ε) :
    t.visibleRows = ((t.stages.filter (·.shown)).flatMap t.rowsOfStage).eraseDups := by
  have hall : ∀ (stages : List Stage) (own : List Row),
      stages.foldl (fun acc stage => addRows acc (t.rowsOfStage stage)) own.eraseDups =
        (own ++ stages.flatMap t.rowsOfStage).eraseDups := by
    intro stages
    induction stages with
    | nil => intro own; rw [List.flatMap_nil, List.append_nil]; rfl
    | cons stage stages ih =>
      intro own
      rw [List.foldl_cons, addRows_eraseDups, ih, List.flatMap_cons, List.append_assoc]
  exact hall (t.stages.filter (·.shown)) []

theorem key_mem_visibleRows {t : Stack ε} {k : RowKey} : k ∈ t.visibleRows.map Row.key ↔
    ∃ stage ∈ t.stages, stage.shown = true ∧ k ∈ (t.rowsOfStage stage).map Row.key := by
  rw [visibleRows_eq, RowTable.key_mem_eraseDups, List.map_flatMap, List.mem_flatMap]
  simp only [List.mem_filter, and_assoc]

/-- What can happen to a stack that is neither cleared nor edited but for which stages are shown, and this only while
nothing runs. -/
inductive Displays [Engine ε] : Stack ε × Segment → Stack ε × Segment → Prop
  | proceeds {p q : Stack ε × Segment} (h : Proceeds p q) : Displays p q
  | reveal {t t' : Stack ε} {seg : Segment} {i : Nat} {shown : Bool}
      (h : t.edit i (fun stage => { stage with shown := shown }) = .ok (some t')) : Displays (t, seg) (t', seg)

/-- The table of the chain as it is now. -/
def table (t : Stack ε) : RowTable := .ofProfiles (t.stages.map (·.profile))

section Displays
variable [Engine ε] {t t' : Stack ε} {seg seg' : Segment} {ms : List Mark}

theorem sameRows_of_absorbs {w : Worker} {stop count : Nat} {sub : Submission} (h : Absorbs t w stop count sub t') :
    SameRows t'.output (storeAll sub.reported t.output t.broadcast []).1 := by
  cases h with
  | misfiled hs | broken hs | refused hs | taken hs =>
    rw [hs]
    exact ⟨rfl, rfl⟩

theorem sorts_of_displays (h : Displays (t, seg) (t', seg')) (hsorts : Sorts t.table ms t.output) :
    ∃ ms', Sorts t'.table ms' t'.output := by
  cases h with
  | proceeds h =>
    have htable : t'.table = t.table := by rw [table, (keeps_of_proceeds h).stages, table]
    rw [htable]
    rcases proceeds_cases h with ⟨-, w, hw, hworks, -⟩ | hapart
    · rcases output_of_works hw hworks with ⟨-, err, houtput⟩ | ⟨stop, count, sub, e, -, -, ha⟩
      · exact ⟨ms, hsorts.congr (by rw [houtput]; exact ⟨rfl, rfl⟩)⟩
      · obtain ⟨taken, htaken⟩ := hsorts.storeAll (.ofProfiles _) sub.reported t.broadcast []
        have hrows := sameRows_of_absorbs ha
        exact ⟨_, htaken.congr hrows⟩
    · have houtput : t'.output = t.output := hapart.output
      exact ⟨ms, houtput ▸ hsorts⟩
  | @reveal _ _ _ i shown h =>
    unfold edit at h
    split at h
    · cases h
    · split at h
      · cases h
      · rename_i stage hstage
        cases h
        have hprofiles : (t.stages.set i { stage with shown := shown }).map (·.profile) =
            t.stages.map (·.profile) := map_set_of_getElem? hstage rfl
        refine ⟨ms, ?_⟩
        rw [table, hprofiles]
        exact hsorts

theorem sorts_of_run {p : Stack ε × Segment} (h : Relation.ReflTransGen Displays p (t, seg))
    (hsorts : Sorts p.1.table ms p.1.output) : ∃ ms', Sorts t.table ms' t.output := by
  generalize hq : (t, seg) = q at h
  induction h generalizing t seg with
  | refl => cases hq; exact ⟨ms, hsorts⟩
  | @tail q r _ hstep ih =>
    cases hq
    obtain ⟨ms', hms'⟩ := ih rfl
    exact sorts_of_displays hstep hms'

end Displays

section Rows
variable {t : Stack ε} {ms : List Mark} {m : Mark} {k : RowKey}

theorem key_mem_rowsOfStage {stage : Stage} : k ∈ (t.rowsOfStage stage).map Row.key ↔
    k ∈ stage.profile.declaredRows.map Row.key ∨ k = (Row.ofProfile stage.profile).key ∧
      (stage.profile.rows = [] ∨
        ∃ track, t.output.track? (.ofProfile stage.profile) = some track ∧ track.isEmpty = false) := by
  unfold rowsOfStage
  rw [List.map_append, List.mem_append]
  refine or_congr_right ?_
  cases htrack : t.output.track? (.ofProfile stage.profile) with
  | none => by_cases hrows : stage.profile.rows = [] <;> simp [hrows]
  | some track => by_cases hrows : stage.profile.rows = [] <;> cases hempty : track.isEmpty <;> simp [hrows, hempty]

/-- Visible rows are rows of the table. -/
theorem mem_keys_of_visible (h : k ∈ t.visibleRows.map Row.key) : k ∈ t.table.keys := by
  obtain ⟨stage, hstage, -, hk⟩ := key_mem_visibleRows.1 h
  refine RowTable.mem_keys_ofProfiles.2 ⟨stage.profile, List.mem_map_of_mem hstage, ?_⟩
  rw [Profile.ownRows, List.map_append, List.mem_append, List.map_singleton, List.mem_singleton]
  rcases key_mem_rowsOfStage.1 hk with hk | ⟨rfl, -⟩
  · exact .inl hk
  · exact .inr rfl

/-- The row of a mark is visible if all stages of its decoder are shown. -/
theorem key_visible (h : Sorts t.table ms t.output) (hm : m ∈ ms) (hk : t.table.keyOf? m = some k)
    (hshown : ∀ stage ∈ t.stages, stage.profile.id = m.decoder → stage.shown = true) :
    k ∈ t.visibleRows.map Row.key := by
  have hclass := (RowTable.Tables.ofProfiles (t.stages.map (·.profile))).classify m.decoder m.cls
  obtain ⟨⟨r, routing⟩, hr, rfl⟩ := Option.map_eq_some_iff.1 hk
  rw [table, hclass] at hr
  rw [key_mem_visibleRows]
  split at hr
  · rename_i hfind
    cases hr
    obtain ⟨p, hp, hmem⟩ := List.mem_flatMap.1 (List.mem_of_find?_eq_some hfind)
    obtain ⟨stage, hstage, rfl⟩ := List.mem_map.1 hp
    have hid : r.profile.id = m.decoder ∧ r.lists m.cls := by simpa using List.find?_some hfind
    have hprofile : r.profile = stage.profile := by
      obtain ⟨i, -, rfl⟩ := List.mem_map.1 hmem
      rfl
    exact ⟨stage, hstage, hshown stage hstage (hprofile ▸ hid.1),
      key_mem_rowsOfStage.2 (.inl (List.mem_map_of_mem hmem))⟩
  · obtain ⟨p, hp, heq⟩ := Option.map_eq_some_iff.1 hr
    cases heq
    obtain ⟨stage, hstage, rfl⟩ := List.mem_map.1 (List.mem_of_find?_eq_some hp)
    have hid : stage.profile.id = m.decoder := by simpa using List.find?_some hp
    refine ⟨stage, hstage, hshown stage hstage hid, key_mem_rowsOfStage.2 (.inr ⟨rfl, .inr ?_⟩)⟩
    -- the default row has a mark in it, so it is visible though the stage may declare rows
    have hmem : m ∈ t.table.shown (Row.ofProfile stage.profile).key ms :=
      List.mem_filter.2 ⟨hm, decide_eq_true hk⟩
    have hlisted := RowTable.mem_keys_ofProfiles.2 ⟨stage.profile, List.mem_map_of_mem hstage,
      List.mem_map_of_mem (List.mem_append_right _ (List.mem_singleton_self _))⟩
    exact ⟨_, h.track? hlisted, Track.isEmpty_ofMarks_of_mem hmem⟩

/-- A visible default row without marks is there for a stage without declared rows. -/
theorem exists_stage_of_default {r : Row} (hr : r ∈ t.visibleRows) (hdefault : r.isDefault = true) {track : Track}
    (htrack : t.output.track? r = some track) (hempty : track.isEmpty = true) :
    ∃ stage ∈ t.stages, stage.shown = true ∧ stage.profile.id = r.profile.id ∧ stage.profile.rows = [] := by
  obtain ⟨stage, hstage, hshown, hk⟩ := key_mem_visibleRows.1 (List.mem_map_of_mem hr)
  rcases key_mem_rowsOfStage.1 hk with hdeclared | ⟨hkey, hrows | ⟨track', htrack', hused⟩⟩
  · obtain ⟨r', hr', heq⟩ := List.mem_map.1 hdeclared
    obtain ⟨i, -, rfl⟩ := List.mem_map.1 hr'
    have hindex : some i = r.index := congrArg RowKey.index heq
    rw [Row.isDefault, ← hindex] at hdefault
    cases hdefault
  · exact ⟨stage, hstage, hshown, (congrArg RowKey.decoder hkey).symm, hrows⟩
  · rw [Output.track?, ← hkey, ← Output.track?, htrack] at htrack'
    cases htrack'
    cases hempty.symm.trans hused

theorem reach_eq (h : Sorts t.table ms t.output) : t.output.reach = (ms.map Mark.stop).foldl max 0 := by
  obtain ⟨period, o, hholds, hlike⟩ := h.like
  rw [Output.reach, hlike.tracks]
  exact hholds.reach (.ofProfiles _) h.fileable.known

/-- All marks of a row reach into the range that is printed, if none is empty. -/
theorem marksOf_eq (h : Sorts t.table ms t.output) (hlong : ∀ m ∈ ms, m.start < m.stop) {r : Row}
    (hr : r.key ∈ t.table.keys) : t.marksOf r = t.table.shown r.key ms := by
  have hgathers : Track.Gathers (t.table.shown r.key ms) (.ofMarks (t.table.shown r.key ms)) :=
    ⟨⟨_, rfl, .refl _⟩, h.fileable.order _⟩
  unfold marksOf Output.within
  rw [h.track? hr]
  refine (hgathers.collect #[] 0 t.output.reach).trans (List.filter_eq_self.2 fun m hm => ?_)
  have hm := List.mem_of_mem_filter hm
  have hstop : m.stop ≤ t.output.reach := by
    rw [reach_eq h]
    exact le_foldl_max (List.mem_cons_of_mem _ (List.mem_map_of_mem hm))
  have hstart := hlong m hm
  exact decide_eq_true ⟨by omega, by omega⟩

end Rows

theorem sorts_launch {s : Stack ε} (hcomplete : s.stages.all Stage.isComplete = true)
    (found : Option (Nat × Segment)) : Sorts (s.launch found).1.table [] (s.launch found).1.output := by
  have hstages : (s.launch found).1.stages = s.stages := by
    cases found with
    | none =>
      obtain ⟨o, b, heq⟩ := s.exists_launch_of_idle (.inr rfl)
      rw [heq]
    | some found =>
      obtain ⟨i, o, rate, heq, -⟩ := s.exists_launch hcomplete found.1 found.2
      rw [heq]
  rw [table, hstages]
  exact ⟨RowTable.fileable_nil _, _, _, holds_launch hcomplete found, .refl _⟩

/-- What is visible since a launch that made the rows, as long as the stack is neither cleared nor edited but for
which stages are shown. The visible rows are distinct and have tracks, and a default row without marks is among
them only for a shown stage of its id without declared rows. A stored mark is in the track of the row that its
class belongs to, which is visible if all stages of the mark's id are shown. If all stages are shown and no mark is
empty, the marks that are printed row by row are those that are stored, each once. -/
theorem visible_of_run [Engine ε] {s t : Stack ε} {seg seg' : Segment}
    (hcomplete : s.stages.all Stage.isComplete = true) (found : Option (Nat × Segment))
    (h : Relation.ReflTransGen Displays ((s.launch found).1, seg) (t, seg')) :
    let stored := t.output.tracks.flatMap fun p => p.2.marks.toList
    (t.visibleRows.map Row.key).Nodup ∧
      (∀ r ∈ t.visibleRows, ∃ track, t.output.track? r = some track ∧
        (r.isDefault = true → track.isEmpty = true →
          ∃ stage ∈ t.stages, stage.shown = true ∧ stage.profile.id = r.profile.id ∧ stage.profile.rows = [])) ∧
      (∀ p ∈ t.output.tracks, ∀ m ∈ p.2.marks.toList, t.table.keyOf? m = some p.1 ∧
        ((∀ stage ∈ t.stages, stage.profile.id = m.decoder → stage.shown = true) →
          p.1 ∈ t.visibleRows.map Row.key)) ∧
      ((∀ m ∈ stored, m.start < m.stop) → (∀ stage ∈ t.stages, stage.shown = true) →
        (t.visibleRows.flatMap t.marksOf).Perm stored) := by
  intro stored
  obtain ⟨ms, hsorts⟩ := sorts_of_run h (sorts_launch hcomplete found)
  have ht : t.table.Enters := .ofProfiles _
  have hperm : stored.Perm ms := hsorts.perm ht
  have hnodup : (t.visibleRows.map Row.key).Nodup := by
    rw [visibleRows_eq]
    exact RowTable.nodup_keys_eraseDups _
  refine ⟨hnodup, fun r hr => ?_, fun p hp m hm => ?_, fun hlong hshown => ?_⟩
  · have hkey := mem_keys_of_visible (List.mem_map_of_mem hr)
    exact ⟨_, hsorts.track? hkey, fun hdefault => exists_stage_of_default hr hdefault (hsorts.track? hkey)⟩
  · rw [hsorts.tracks] at hp
    obtain ⟨r, -, rfl⟩ := List.mem_map.1 hp
    obtain ⟨hmem, hkey⟩ := List.mem_filter.1 (show m ∈ t.table.shown r.key ms from hm)
    rw [decide_eq_true_eq] at hkey
    exact ⟨hkey, key_visible hsorts hmem hkey⟩
  · have hlong : ∀ m ∈ ms, m.start < m.stop := fun m hm => hlong m (hperm.mem_iff.2 hm)
    have hmarks : t.visibleRows.flatMap t.marksOf =
        ((t.visibleRows.map Row.key).map fun k => t.table.shown k ms).flatten := by
      rw [List.flatMap, List.map_map]
      exact congrArg _ (List.map_congr_left fun r hr =>
        marksOf_eq hsorts hlong (mem_keys_of_visible (List.mem_map_of_mem hr)))
    rw [hmarks]
    refine (RowTable.flatten_shown hnodup fun m hm => ?_).trans hperm.symm
    obtain ⟨⟨r, routing⟩, hc⟩ := Option.isSome_iff_exists.1 (hsorts.fileable.known m hm)
    have hkey : t.table.keyOf? m = some r.key := by rw [RowTable.keyOf?, hc]; rfl
    exact ⟨r.key, key_visible hsorts hm hkey fun stage hstage _ => hshown stage hstage, hkey⟩

/-- Two stages of one id with rows of their own, and a stage that is shown only after the run. The default row of the
first two has a mark of a class that neither has a row for. -/
theorem visible_of_run_shared_id :
    let d : Profile := ⟨"d", "D", "D", [], [], [], [⟨"r", "R", [0]⟩]⟩
    let hidden : Stage := { Stage.ofProfile ⟨"e", "E", "E", [], [], [], []⟩ with shown := false }
    let stages : List Stage :=
      [.ofProfile d, .ofProfile { d with rows := [⟨"r", "R", [1]⟩, ⟨"q", "Q", [2]⟩] }, hidden]
    let marks : List Mark := [⟨0, 3, "d", 7, []⟩, ⟨1, 2, "d", 2, []⟩, ⟨1, 4, "e", 0, []⟩]
    let s : Stack Script :=
      .create stages ⟨marks, none, none, none, none, none, [], 0, []⟩ .standard .stopped .shared
    let seg : Segment := ⟨1, 0.0, 0.0, #[0, 0], by decide⟩
    s.stages.all Stage.isComplete = true ∧ ∃ t : Stack Script,
      Relation.ReflTransGen Displays ((s.launch (some (0, seg))).1, seg) (t, seg) ∧
        t.visibleRows.map Row.key = [⟨"d", some 0⟩, ⟨"d", none⟩, ⟨"d", some 1⟩, ⟨"e", none⟩] ∧
        (t.visibleRows.flatMap t.marksOf).Perm (t.output.tracks.flatMap fun p => p.2.marks.toList) ∧
        (t.output.tracks.flatMap fun p => p.2.marks.toList).length = 3 := by
  intro d hidden stages marks s seg
  let w : Worker := ⟨stages, 0, if seg.rate == 0.0 then 1.0 else seg.rate, s.config, .queued⟩
  let u := ((s.launch (some (0, seg))).1.enter w seg).1
  let r := (u.settle seg).1
  have hsettled : Relation.ReflTransGen Proceeds ((s.launch (some (0, seg))).1, seg) (r, seg) :=
    .head (.enter (w := w) rfl rfl) (proceeds_settle u seg)
  have hstages : r.stages = stages := (keeps_of_run hsettled).stages
  have hidle : r.isRunning = false := by decide +kernel
  let t : Stack Script := { r with stages := r.stages.set 2 { hidden with shown := true } }
  have hedit : r.edit 2 (fun stage => { stage with shown := true }) = .ok (some t) := by
    unfold edit
    rw [hidle, if_neg (by decide), hstages]
    simp only [stages, t, hstages]
    rfl
  have hrun : Relation.ReflTransGen Displays ((s.launch (some (0, seg))).1, seg) (t, seg) :=
    (hsettled.lift id fun _ _ => .proceeds).tail (.reveal hedit)
  have hshown : ∀ stage ∈ t.stages, stage.shown = true := by
    intro stage hstage
    rw [show t.stages = stages.set 2 { hidden with shown := true } from congrArg (List.set · 2 _) hstages] at hstage
    revert stage
    decide +kernel
  have hcomplete : s.stages.all Stage.isComplete = true := by decide
  have hkeys : t.visibleRows.map Row.key = [⟨"d", some 0⟩, ⟨"d", none⟩, ⟨"d", some 1⟩, ⟨"e", none⟩] := by
    decide +kernel
  have hlong : ∀ m ∈ t.output.tracks.flatMap (fun p => p.2.marks.toList), m.start < m.stop := by decide +kernel
  have hlength : (t.output.tracks.flatMap fun p => p.2.marks.toList).length = 3 := by decide +kernel
  clear_value t
  obtain ⟨-, -, -, hprinted⟩ := visible_of_run hcomplete _ hrun
  exact ⟨hcomplete, t, hrun, hkeys, hprinted hlong hshown, hlength⟩

end Stack
end LogicDecode
