import LogicDecode.Proofs.RowKeys
import LogicDecode.Proofs.Storing
import LogicDecode.Run.Lifecycle
import Mathlib.Algebra.GroupWithZero.Nat
import Mathlib.Data.List.Perm.Basic

/-!
# Filing marks under rows

`HoldsMarks table period ms o`: an output that was prepared for a table has been given the marks `ms` and nothing
else. The track of each row is what of `ms` goes to the row, in its order; the classes noted as unlisted are
those that fell to a default row for want of a declared one. A mark of a decoder in the chain that does
not start before the marks of its row is filed (`HoldsMarks.store`), and so are all of a run (`HoldsMarks.storeAll`).
-/

namespace LogicDecode
namespace RowTable
variable (t : RowTable)

/-- The key of the row that a mark goes to. -/
def keyOf? (m : Mark) : Option RowKey := (t.classify m.decoder m.cls).map fun p => p.1.key

/-- The marks that go to a row. -/
def shown (k : RowKey) (ms : List Mark) : List Mark := ms.filter fun m => t.keyOf? m = some k

/-- The class of the mark is in no row of its decoder, which declares some. -/
def Misses (m : Mark) : Prop := ∃ r, t.classify m.decoder m.cls = some (r, .fallback) ∧ r.profile.rows ≠ []

/-- The marks of each row are in the order of their starts. -/
def InOrder (ms : List Mark) : Prop := ∀ k, (t.shown k ms).Pairwise fun a b => a.start ≤ b.start

theorem inOrder_of_pairwise {ms : List Mark} (h : ms.Pairwise fun a b => a.start ≤ b.start) : t.InOrder ms :=
  fun _ => h.filter _

variable {t} in
/-- A mark does not start before those of its row that come before it. -/
theorem InOrder.le {ms rest : List Mark} {m : Mark} (h : t.InOrder (ms ++ m :: rest)) :
    ∀ k, t.keyOf? m = some k → ∀ a ∈ t.shown k ms, a.start ≤ m.start := by
  intro k hk a ha
  have hpairs := h k
  rw [shown, List.filter_append, List.filter_cons_of_pos (by simpa using hk)] at hpairs
  exact (List.pairwise_append.1 hpairs).2.2 a ha m (List.mem_cons_self ..)

/-- The marks can all be filed: each has a row, and those of one row are in order. -/
structure Fileable (ms : List Mark) : Prop where
  known : ∀ m ∈ ms, (t.classify m.decoder m.cls).isSome
  order : t.InOrder ms

theorem fileable_nil : t.Fileable [] := ⟨nofun, fun _ => .nil⟩

variable {t} {ms : List Mark} {m : Mark}

theorem Fileable.snoc (h : t.Fileable ms) (hknown : (t.classify m.decoder m.cls).isSome)
    (horder : ∀ k, t.keyOf? m = some k → ∀ a ∈ t.shown k ms, a.start ≤ m.start) : t.Fileable (ms ++ [m]) := by
  refine ⟨fun m' hm' => ?_, fun k => ?_⟩
  · rcases List.mem_append.1 hm' with hm' | hm'
    · exact h.known m' hm'
    · exact List.mem_singleton.1 hm' ▸ hknown
  · rw [shown, List.filter_append]
    refine List.pairwise_append.2 ⟨h.order k, (List.pairwise_singleton _ _).filter _, fun a ha b hb => ?_⟩
    obtain ⟨hb, hkey⟩ := List.mem_filter.1 hb
    obtain rfl := List.mem_singleton.1 hb
    exact horder k (of_decide_eq_true hkey) a ha

end RowTable

namespace Track

/-- A track that has stored marks. -/
def ofMarks (ms : List Mark) : Track := ⟨ms.toArray, (ms.map Mark.stop).foldl max 0⟩

theorem insert_ofMarks (ms : List Mark) (m : Mark) : (ofMarks ms).insert m = ofMarks (ms ++ [m]) := by
  simp [ofMarks, insert, List.foldl_append]

theorem admits_ofMarks {ms : List Mark} {m : Mark} (h : ∀ a ∈ ms, a.start ≤ m.start) :
    (ofMarks ms).admits m = true := by
  unfold admits
  split
  · rfl
  · rename_i last hlast
    have hmem : last ∈ ms := by simpa [ofMarks] using Array.mem_of_back? hlast
    exact decide_eq_true (h last hmem)

theorem le_of_admits_ofMarks {ms : List Mark} {m : Mark} (hsorted : ms.Pairwise fun a b => a.start ≤ b.start)
    (h : (ofMarks ms).admits m = true) : ∀ a ∈ ms, a.start ≤ m.start := by
  intro a ha
  rcases List.eq_nil_or_concat ms with rfl | ⟨init, last, rfl⟩
  · cases ha
  · rw [List.concat_eq_append] at *
    have hlast : last.start ≤ m.start := by simpa [ofMarks, admits] using h
    rcases List.mem_append.1 ha with ha | ha
    · exact Nat.le_trans ((List.pairwise_append.1 hsorted).2.2 a ha last (List.mem_singleton_self _)) hlast
    · exact List.mem_singleton.1 ha ▸ hlast

end Track

theorem modifyKey_map {κ α β : Type} [DecidableEq κ] {key : β → κ} {rows : List β}
    (hnd : (rows.map key).Nodup) (k : κ) (f : α → α) (g : κ → α) :
    modifyKey k f (rows.map fun r => (key r, g (key r))) =
      rows.map fun r => (key r, if key r = k then f (g (key r)) else g (key r)) := by
  induction rows with
  | nil => rfl
  | cons r rows ih =>
    obtain ⟨hr, hnd⟩ := List.nodup_cons.1 hnd
    rw [List.map_cons, List.map_cons, modifyKey]
    split
    · rename_i hk
      rw [if_pos hk.symm, hk]
      refine congrArg _ (List.map_congr_left fun r' hr' => ?_)
      have hne : key r' ≠ key r := fun h => hr (h ▸ List.mem_map_of_mem hr')
      rw [if_neg hne]
    · rename_i hk
      rw [if_neg fun h => hk h.symm, ih hnd]

theorem lookup_map {κ α β : Type} [DecidableEq κ] {key : β → κ} {rows : List β} {k : κ} (g : κ → α)
    (h : k ∈ rows.map key) : (rows.map fun r => (key r, g (key r))).lookup k = some (g k) := by
  induction rows with
  | nil => cases h
  | cons r rows ih =>
    rw [List.map_cons, List.lookup_cons]
    by_cases hk : k = key r
    · simp [hk]
    · have hne : (k == key r) = false := by simpa using hk
      rw [hne]
      exact ih ((List.mem_cons.1 h).resolve_left hk)

/-- What an output holds that was prepared for a table and has been given marks since. -/
structure HoldsMarks (t : RowTable) (period : Nat) (ms : List Mark) (o : Output) : Prop where
  table : o.table = t
  period : o.notifyPeriod = period
  stored : o.stored = ms.length
  tracks : o.tracks = t.rows.map fun r => (r.key, Track.ofMarks (t.shown r.key ms))
  noted : o.unlisted.Nodup
  unlisted : ∀ p, p ∈ o.unlisted ↔ ∃ m ∈ ms, t.Misses m ∧ (m.decoder, m.cls) = p

/-- What is put on record when a class is noted. -/
def LogEntry.ofUnlisted (p : String × Nat) : LogEntry := .unlisted p.1 p.2

/-- Tells subscribers of the marks from a number on to below another that are numbered by a multiple of
the period. -/
def Broadcast.tell (b : Broadcast) (period start count : Nat) : Broadcast :=
  ((List.range' start count).filter fun i => i % period = 0).foldl (fun b _ => b.send .marks) b

theorem Broadcast.tell_succ (b : Broadcast) (period start count : Nat) :
    b.tell period start (count + 1) =
      (if start % period == 0 then b.send .marks else b).tell period (start + 1) count := by
  unfold tell
  rw [List.range'_succ, List.filter_cons]
  by_cases h : start % period = 0 <;> simp [h]

theorem foldl_max_flatten (xss : List (List Nat)) :
    (xss.map (List.foldl max 0)).foldl max 0 = xss.flatten.foldl max 0 := by
  have hmax : ∀ (xs : List Nat) (n : Nat), xs.foldl max n = max n (xs.foldl max 0) := by
    intro xs
    induction xs with
    | nil => simp
    | cons x xs ih => intro n; rw [List.foldl_cons, List.foldl_cons, ih, ih (max 0 x)]; omega
  rw [List.foldl_map, List.foldl_flatten]
  congr 1
  funext n xs
  exact (hmax xs n).symm

/-- The rows share out the marks that have a row. -/
theorem RowTable.flatten_shown {t : RowTable} {keys : List RowKey} (hnd : keys.Nodup) {ms : List Mark}
    (h : ∀ m ∈ ms, ∃ k ∈ keys, t.keyOf? m = some k) : (keys.map fun k => t.shown k ms).flatten.Perm ms := by
  induction keys generalizing ms with
  | nil =>
    cases ms with
    | nil => exact .nil
    | cons m ms => simpa using h m (List.mem_cons_self ..)
  | cons k keys ih =>
    obtain ⟨hk, hnd⟩ := List.nodup_cons.1 hnd
    -- the other rows have the same marks if those of the first row are left out
    have hothers : ∀ k' ∈ keys, t.shown k' ms = t.shown k' (ms.filter fun m => !decide (t.keyOf? m = some k)) := by
      intro k' hk'
      rw [shown, shown, List.filter_filter]
      refine List.filter_congr fun m _ => ?_
      by_cases hm : t.keyOf? m = some k'
      · have hne : k' ≠ k := fun heq => hk (heq ▸ hk')
        simp [hm, hne]
      · simp [hm]
    rw [List.map_cons, List.flatten_cons, List.map_congr_left hothers]
    refine (List.Perm.append_left _ (ih hnd fun m hm => ?_)).trans (List.filter_append_perm _ ms)
    obtain ⟨hm, hne⟩ := List.mem_filter.1 hm
    obtain ⟨k', hk', hkey⟩ := h m hm
    refine ⟨k', (List.mem_cons.1 hk').resolve_left ?_, hkey⟩
    rintro rfl
    simp [hkey] at hne

namespace HoldsMarks
variable {t : RowTable} {period : Nat} {ms more : List Mark} {o : Output} {m : Mark}

/-- Only the rows, the number of marks and the classes noted count. -/
theorem congr {o' : Output} (h : HoldsMarks t period ms o) (htable : o'.table = o.table)
    (hperiod : o'.notifyPeriod = o.notifyPeriod) (hstored : o'.stored = o.stored)
    (htracks : o'.tracks = o.tracks) (hunlisted : o'.unlisted = o.unlisted) : HoldsMarks t period ms o' := by
  constructor
  · rw [htable, h.table]
  · rw [hperiod, h.period]
  · rw [hstored, h.stored]
  · rw [htracks, h.tracks]
  · rw [hunlisted]
    exact h.noted
  · rw [hunlisted]
    exact h.unlisted

theorem track? (h : HoldsMarks t period ms o) {r : Row} (hr : r.key ∈ t.keys) :
    o.track? r = some (.ofMarks (t.shown r.key ms)) := by
  unfold Output.track?
  rw [h.tracks]
  exact lookup_map (fun k => Track.ofMarks (t.shown k ms)) hr

/-- The class of a mark is noted once, when it is the first one that its decoder's rows miss. -/
theorem note (h : HoldsMarks t period ms o) {r : Row} {routing : Routing}
    (hc : t.classify m.decoder m.cls = some (r, routing)) :
    ∃ o' new, o.noteUnlisted m r routing = (o', new.map .ofUnlisted) ∧
      o'.unlisted = o.unlisted ++ new ∧ o'.unlisted.Nodup ∧
      (∀ p, p ∈ o'.unlisted ↔ ∃ m' ∈ ms ++ [m], t.Misses m' ∧ (m'.decoder, m'.cls) = p) ∧
      o'.table = o.table ∧ o'.notifyPeriod = o.notifyPeriod ∧ o'.stored = o.stored ∧ o'.tracks = o.tracks := by
  have hmisses : t.Misses m ↔ routing = .fallback ∧ r.profile.rows ≠ [] := by
    constructor
    · rintro ⟨r', hr', hrows⟩
      rw [hc] at hr'
      cases hr'
      exact ⟨rfl, hrows⟩
    · rintro ⟨rfl, hrows⟩
      exact ⟨r, hc, hrows⟩
  have hmem : ∀ p, (∃ m' ∈ ms ++ [m], t.Misses m' ∧ (m'.decoder, m'.cls) = p) ↔
      p ∈ o.unlisted ∨ t.Misses m ∧ (m.decoder, m.cls) = p := by
    intro p
    rw [h.unlisted p]
    constructor
    · rintro ⟨m', hm', hrest⟩
      rcases List.mem_append.1 hm' with hm' | hm'
      · exact .inl ⟨m', hm', hrest⟩
      · rw [List.mem_singleton.1 hm'] at hrest
        exact .inr hrest
    · rintro (⟨m', hm', hrest⟩ | hrest)
      · exact ⟨m', List.mem_append_left _ hm', hrest⟩
      · exact ⟨m, by simp, hrest⟩
  unfold Output.noteUnlisted
  by_cases hnew : routing = .fallback ∧ r.profile.rows ≠ [] ∧ (m.decoder, m.cls) ∉ o.unlisted
  · rw [if_pos hnew]
    have hmiss : t.Misses m := hmisses.2 ⟨hnew.1, hnew.2.1⟩
    refine ⟨_, [(m.decoder, m.cls)], rfl, rfl, ?_, fun p => ?_, rfl, rfl, rfl, rfl⟩
    · refine List.nodup_append.2 ⟨h.noted, by simp, ?_⟩
      rintro a ha b hb rfl
      rw [List.mem_singleton.1 hb] at ha
      exact hnew.2.2 ha
    · rw [hmem p, List.mem_append, List.mem_singleton]
      exact or_congr_right ⟨fun hp => ⟨hmiss, hp.symm⟩, fun hp => hp.2.symm⟩
  · rw [if_neg hnew]
    refine ⟨_, [], rfl, (List.append_nil _).symm, h.noted, fun p => ?_, rfl, rfl, rfl, rfl⟩
    rw [hmem p]
    refine ⟨.inl, fun hp => hp.elim id ?_⟩
    -- the class is not new, so it was noted before
    rintro ⟨hmiss, rfl⟩
    obtain ⟨hrouting, hrows⟩ := hmisses.1 hmiss
    by_contra hnot
    exact hnew ⟨hrouting, hrows, hnot⟩

/-- A mark of the chain that does not start before those of its row is filed. -/
theorem store (h : HoldsMarks t period ms o) (ht : t.Enters) (hknown : (t.classify m.decoder m.cls).isSome)
    (horder : ∀ k, t.keyOf? m = some k → ∀ a ∈ t.shown k ms, a.start ≤ m.start) :
    ∃ o' new, o.store m = ⟨o', new.map .ofUnlisted, .ok (ms.length % period == 0)⟩ ∧
      o'.unlisted = o.unlisted ++ new ∧ HoldsMarks t period (ms ++ [m]) o' := by
  obtain ⟨⟨r, routing⟩, hc⟩ := Option.isSome_iff_exists.1 hknown
  have hkey : t.keyOf? m = some r.key := by rw [RowTable.keyOf?, hc]; rfl
  obtain ⟨o', new, hnote, hnew, hnoted, hunlisted, htable, hperiod, hstored, htracks⟩ := h.note hc
  have htrack : o'.track? r = some (.ofMarks (t.shown r.key ms)) := by
    rw [← h.track? (ht.mem_keys hc)]
    simp only [Output.track?, htracks]
  have hfree : o'.obstacle? r m = none := by
    unfold Output.obstacle?
    rw [htrack]
    exact if_pos (Track.admits_ofMarks (horder _ hkey))
  refine ⟨o'.file r m, new, ?_, hnew, ?_⟩
  · unfold Output.store
    rw [h.table, hc]
    dsimp only
    rw [hnote]
    dsimp only
    rw [hfree, hstored, h.stored, hperiod, h.period]
  · refine ⟨htable.trans h.table, hperiod.trans h.period, ?_, ?_, hnoted, hunlisted⟩
    · show o'.stored + 1 = _
      rw [hstored, h.stored, List.length_append]
      rfl
    · show modifyKey r.key (fun t => t.insert m) o'.tracks = _
      rw [htracks, h.tracks, modifyKey_map ht.distinct r.key _ fun k => Track.ofMarks (t.shown k ms)]
      refine List.map_congr_left fun r' _ => congrArg (Prod.mk _) ?_
      unfold RowTable.shown
      rw [List.filter_append]
      split
      · rename_i hr'
        rw [Track.insert_ofMarks]
        simp [hkey, hr']
      · rename_i hr'
        have hne : ¬ t.keyOf? m = some r'.key := by rw [hkey]; exact fun h => hr' (Option.some.inj h).symm
        simp [hne]

theorem storeAll (h : HoldsMarks t period ms o) (ht : t.Enters)
    (hknown : ∀ m ∈ more, (t.classify m.decoder m.cls).isSome) (horder : t.InOrder (ms ++ more))
    (b : Broadcast) (log : List LogEntry) :
    ∃ o' new, Stack.storeAll more o b log =
        (o', b.tell period ms.length more.length, log ++ new.map .ofUnlisted, none) ∧
      o'.unlisted = o.unlisted ++ new ∧ HoldsMarks t period (ms ++ more) o' := by
  induction more generalizing ms o b log with
  | nil => exact ⟨o, [], by simp [Stack.storeAll, Broadcast.tell], by simp, by simpa using h⟩
  | cons m rest ih =>
    obtain ⟨o₁, new₁, hstore, hnew₁, h₁⟩ := h.store ht (hknown m (List.mem_cons_self ..)) horder.le
    have hresult : (o.store m).result = .ok (ms.length % period == 0) := by rw [hstore]
    rw [List.append_cons] at horder
    obtain ⟨o₂, new₂, hrest, hnew₂, h₂⟩ := ih h₁ (fun m' hm' => hknown m' (List.mem_cons_of_mem _ hm')) horder
      (if ms.length % period == 0 then b.send .marks else b) (log ++ new₁.map .ofUnlisted)
    refine ⟨o₂, new₁ ++ new₂, ?_, by rw [hnew₂, hnew₁, List.append_assoc], by rwa [List.append_cons]⟩
    rw [storeAll_cons hresult, hstore, hrest, List.length_cons, Broadcast.tell_succ, List.length_append]
    simp

/-- A mark that is filed has a row, and does not start before the marks of it. -/
theorem of_store (h : HoldsMarks t period ms o) (hfileable : t.Fileable ms) (ht : t.Enters) {tell : Bool}
    (hstore : (o.store m).result = .ok tell) : t.Fileable (ms ++ [m]) := by
  unfold Output.store at hstore
  rw [h.table] at hstore
  cases hc : t.classify m.decoder m.cls with
  | none => simp [hc] at hstore
  | some found =>
    obtain ⟨r, routing⟩ := found
    have hkey : t.keyOf? m = some r.key := by rw [RowTable.keyOf?, hc]; rfl
    obtain ⟨o', new, hnote, -, -, -, -, -, -, htracks⟩ := h.note hc
    have htrack : o'.track? r = some (.ofMarks (t.shown r.key ms)) := by
      rw [← h.track? (ht.mem_keys hc)]
      simp only [Output.track?, htracks]
    have hadmits : (Track.ofMarks (t.shown r.key ms)).admits m = true := by
      rw [hc] at hstore
      dsimp only at hstore
      rw [hnote] at hstore
      dsimp only [Output.obstacle?] at hstore
      rw [htrack] at hstore
      dsimp only at hstore
      by_contra hnot
      rw [if_neg hnot] at hstore
      cases hstore
    refine hfileable.snoc (by rw [hc]; rfl) fun k hk => ?_
    obtain rfl := Option.some.inj (hkey.symm.trans hk)
    exact Track.le_of_admits_ofMarks (hfileable.order _) hadmits

/-- Marks can be filed without a fault just when they fit behind those that are there. -/
theorem fileable_iff (h : HoldsMarks t period ms o) (hfileable : t.Fileable ms) (ht : t.Enters) (b : Broadcast)
    (log : List LogEntry) : t.Fileable (ms ++ more) ↔ (Stack.storeAll more o b log).2.2.2 = none := by
  constructor
  · intro hall
    obtain ⟨o', new, hstore, -⟩ :=
      h.storeAll ht (fun m hm => hall.known m (List.mem_append_right _ hm)) hall.order b log
    rw [hstore]
  · intro hnone
    induction more generalizing ms o b log with
    | nil => rwa [List.append_nil]
    | cons m rest ih =>
      cases hr : (o.store m).result with
      | error f =>
        rw [storeAll_cons_fault hr] at hnone
        cases hnone
      | ok tell =>
        have hnext := h.of_store hfileable ht hr
        obtain ⟨o', new, hstore, -, h'⟩ := h.store ht (hnext.known m (by simp)) hnext.order.le
        rw [storeAll_cons hr, hstore] at hnone
        rw [List.append_cons]
        exact ih h' hnext _ _ hnone

/-- Each mark is in the track of one row, once. -/
theorem perm (h : HoldsMarks t period ms o) (ht : t.Enters) (hknown : ∀ m ∈ ms, (t.classify m.decoder m.cls).isSome) :
    (o.tracks.map fun p => p.2.marks.toList).flatten.Perm ms := by
  have hrows : (o.tracks.map fun p => p.2.marks.toList) = t.keys.map fun k => t.shown k ms := by
    rw [h.tracks, RowTable.keys, List.map_map, List.map_map]
    rfl
  rw [hrows]
  refine RowTable.flatten_shown ht.distinct fun m hm => ?_
  obtain ⟨⟨r, routing⟩, hc⟩ := Option.isSome_iff_exists.1 (hknown m hm)
  exact ⟨r.key, ht.mem_keys hc, by rw [RowTable.keyOf?, hc]; rfl⟩

theorem reach (h : HoldsMarks t period ms o) (ht : t.Enters) (hknown : ∀ m ∈ ms, (t.classify m.decoder m.cls).isSome) :
    o.reach = (ms.map Mark.stop).foldl max 0 := by
  have hreach : ∀ p ∈ o.tracks, p.2.reach = (p.2.marks.toList.map Mark.stop).foldl max 0 := by
    rw [h.tracks]
    intro p hp
    obtain ⟨r, -, rfl⟩ := List.mem_map.1 hp
    rfl
  calc o.reach
      = ((o.tracks.map fun p => p.2.marks.toList.map Mark.stop).map (List.foldl max 0)).foldl max 0 := by
        rw [Output.reach, List.map_map, List.map_congr_left hreach]
        rfl
    _ = (o.tracks.map fun p => p.2.marks.toList.map Mark.stop).flatten.foldl max 0 := foldl_max_flatten _
    _ = ((o.tracks.map fun p => p.2.marks.toList).flatten.map Mark.stop).foldl max 0 := by
        rw [List.map_flatten, List.map_map]
        rfl
    _ = (ms.map Mark.stop).foldl max 0 := ((h.perm ht hknown).map _).foldl_eq _

end HoldsMarks

/-- A mark of a decoder in a chain of stages has a row. -/
theorem isSome_classify_of_stage {stages : List Stage} {m : Mark}
    (h : ∃ stage ∈ stages, stage.profile.id = m.decoder) :
    ((RowTable.ofProfiles (stages.map (·.profile))).classify m.decoder m.cls).isSome := by
  obtain ⟨stage, hstage, hid⟩ := h
  exact RowTable.isSome_classify ⟨stage.profile, List.mem_map_of_mem hstage, hid⟩ m.cls

theorem holds_launch {ε : Type} {s : Stack ε} (hcomplete : s.stages.all Stage.isComplete = true)
    (found : Option (Nat × Segment)) :
    HoldsMarks (.ofProfiles (s.stages.map (·.profile))) (max s.config.notifyPeriod 1) [] (s.launch found).1.output := by
  unfold Stack.launch
  dsimp only [Stack.clear]
  rw [hcomplete, if_neg (by decide)]
  cases found <;> exact ⟨rfl, rfl, rfl, rfl, .nil, by simp [Output.prepare, Output.clear]⟩

/-- What is stored since a run was prepared: the track of each row holds the marks that go to it, and each
mark is in one of them; they number as many as are counted, and reach as far as any of them. The classes
noted are those that fell to the default row of a decoder that declares rows, and each is put on record
once. Subscribers are told of the marks numbered by multiples of the period. -/
theorem storeAll_prepared {ε : Type} {s : Stack ε} (hcomplete : s.stages.all Stage.isComplete = true)
    (found : Option (Nat × Segment)) {marks : List Mark}
    (hknown : ∀ m ∈ marks, ∃ stage ∈ s.stages, stage.profile.id = m.decoder)
    (horder : (RowTable.ofProfiles (s.stages.map (·.profile))).InOrder marks) (b : Broadcast) :
    let t := RowTable.ofProfiles (s.stages.map (·.profile))
    ∃ o log, Stack.storeAll marks (s.launch found).1.output b [] =
        (o, b.tell (max 1 s.config.notifyPeriod) 0 marks.length, log, none) ∧
      (o.tracks.map Prod.fst = t.keys ∧ t.keys.Nodup) ∧
      (∀ p ∈ o.tracks, p.2.marks.toList = t.shown p.1 marks) ∧
      (o.tracks.map fun p => p.2.marks.toList).flatten.Perm marks ∧
      (∀ m ∈ marks, ∃! k, k ∈ o.tracks.map Prod.fst ∧ t.keyOf? m = some k) ∧
      ((o.tracks.map fun p => p.2.size).sum = o.stored ∧ o.stored = marks.length) ∧
      o.reach = (marks.map Mark.stop).foldl max 0 ∧
      (∀ d c, (d, c) ∈ o.unlisted ↔ ∃ m ∈ marks, t.Misses m ∧ m.decoder = d ∧ m.cls = c) ∧
      (o.unlisted.Nodup ∧ log = o.unlisted.map fun p => .unlisted p.1 p.2) := by
  intro t
  have ht : t.Enters := .ofProfiles _
  have hclass : ∀ m ∈ marks, (t.classify m.decoder m.cls).isSome := by
    intro m hm
    obtain ⟨stage, hstage, hid⟩ := hknown m hm
    exact RowTable.isSome_classify ⟨stage.profile, List.mem_map_of_mem hstage, hid⟩ m.cls
  have hlaunch := holds_launch hcomplete found
  rw [← List.nil_append marks] at horder
  obtain ⟨o, new, hstore, hnew, hholds⟩ := hlaunch.storeAll ht hclass horder b []
  rw [List.nil_append] at hholds hstore
  have hperm := hholds.perm ht hclass
  have hkeys : o.tracks.map Prod.fst = t.keys := by
    rw [hholds.tracks, List.map_map]
    rfl
  have hnone : (s.launch found).1.output.unlisted = [] := List.eq_nil_iff_forall_not_mem.2 fun p hp => by
    have := (hlaunch.unlisted p).1 hp
    simp at this
  rw [hnone, List.nil_append] at hnew
  refine ⟨o, _, by rw [hstore, Nat.max_comm]; rfl, ⟨hkeys, ht.distinct⟩, fun p hp => ?_, hperm, fun m hm => ?_,
    ⟨?_, hholds.stored⟩, hholds.reach ht hclass, fun d c => ?_, hholds.noted, by rw [hnew]; rfl⟩
  · rw [hholds.tracks] at hp
    obtain ⟨r, -, rfl⟩ := List.mem_map.1 hp
    rfl
  · obtain ⟨⟨r, routing⟩, hc⟩ := Option.isSome_iff_exists.1 (hclass m hm)
    have hkey : t.keyOf? m = some r.key := by rw [RowTable.keyOf?, hc]; rfl
    refine ⟨r.key, ⟨hkeys ▸ ht.mem_keys hc, hkey⟩, fun k hk => ?_⟩
    rw [hkey] at hk
    exact (Option.some.inj hk.2).symm
  · rw [hholds.stored, ← hperm.length_eq, List.length_flatten, List.map_map]
    exact congrArg List.sum (List.map_congr_left fun p _ => (Array.length_toList).symm)
  · simp only [hholds.unlisted, Prod.mk.injEq]
    rfl

/-- Two stages of one id, the second with a row more: class 0 is in a row of the first, class 2 in the row
that only the second has, and class 7 in none. -/
theorem storeAll_prepared_shared_id :
    let p : Profile := ⟨"d", "D", "D", [], [], [], [⟨"r", "R", [0]⟩]⟩
    let s : Stack Unit := .create [.ofProfile p, .ofProfile { p with rows := [⟨"r", "R", [1]⟩, ⟨"q", "Q", [2]⟩] }]
      () ⟨0, 2⟩ .stopped .shared
    let marks : List Mark := [⟨0, 9, "d", 7, []⟩, ⟨1, 2, "d", 2, []⟩, ⟨1, 3, "d", 1, []⟩, ⟨2, 4, "d", 7, []⟩]
    s.stages.all Stage.isComplete = true ∧ (∀ m ∈ marks, ∃ stage ∈ s.stages, stage.profile.id = m.decoder) ∧
      (RowTable.ofProfiles (s.stages.map (·.profile))).InOrder marks ∧
      ∃ o log, Stack.storeAll marks (s.launch none).1.output .empty [] =
          (o, Broadcast.empty.tell 2 0 4, log, none) ∧
        o.stored = 4 ∧ o.reach = 9 ∧ log.length = o.unlisted.length ∧ ("d", 7) ∈ o.unlisted := by
  intro p s marks
  have hcomplete : s.stages.all Stage.isComplete = true := by decide
  have hknown : ∀ m ∈ marks, ∃ stage ∈ s.stages, stage.profile.id = m.decoder := by decide
  have horder : (RowTable.ofProfiles (s.stages.map (·.profile))).InOrder marks :=
    RowTable.inOrder_of_pairwise _ (by decide)
  obtain ⟨o, log, hstore, -, -, -, -, ⟨-, hstored⟩, hreach, hunlisted, -, hlog⟩ :=
    storeAll_prepared hcomplete none hknown horder .empty
  refine ⟨hcomplete, hknown, horder, o, log, hstore, hstored, hreach, by rw [hlog, List.length_map], ?_⟩
  have hmiss : (RowTable.ofProfiles (s.stages.map (·.profile))).Misses ⟨0, 9, "d", 7, []⟩ :=
    ⟨.ofProfile p, by rfl, by decide⟩
  exact (hunlisted "d" 7).2 ⟨⟨0, 9, "d", 7, []⟩, by simp [marks], hmiss, rfl, rfl⟩

end LogicDecode
