import HotStuffTx.ResultFile

/-!
# Reconciling the result file

What one call of `reconcile_csv` does to every row, when it raises, and that a
second call finds nothing left to do. Each directory is answered by at most one
row, so the loop over the directories acts on every row on its own.
-/

set_option linter.unusedSectionVars false

namespace HotStuffTx.ResultFile

open Csv (excel)

-- ---------------------------------------------------------------------------
-- The last row of an id
-- ---------------------------------------------------------------------------

/-- Row `i` is the last one that names the directory. -/
def LastOf (rows : List Row) (entry : Text) (i : Nat) : Prop :=
  entry ≠ [] ∧ (∃ row, rows[i]? = some row ∧ row.text runId = entry) ∧
    ∀ j row, rows[j]? = some row → row.text runId = entry → j ≤ i

theorem rowsById_eq_none {rows : List Row} {entry : Text} (h : rowsById entry rows = none)
    (hne : entry ≠ []) : ∀ row ∈ rows, row.text runId ≠ entry := by
  induction rows with
  | nil => exact fun row hrow => absurd hrow List.not_mem_nil
  | cons row rows ih =>
    rw [rowsById] at h
    cases hrest : rowsById entry rows with
    | some j => simp [hrest] at h
    | none =>
      simp only [hrest, ite_eq_right_iff, reduceCtorEq, imp_false, not_and, not_not] at h
      exact List.forall_mem_cons.mpr ⟨fun hid => hne (h hid), ih hrest⟩

theorem LastOf.unique {rows : List Row} {entry : Text} {i j : Nat} (hi : LastOf rows entry i)
    (hj : LastOf rows entry j) : i = j := by
  obtain ⟨-, ⟨row, hrow, hid⟩, hlast⟩ := hi
  obtain ⟨-, ⟨row', hrow', hid'⟩, hlast'⟩ := hj
  exact Nat.le_antisymm (hlast' i row hrow hid) (hlast j row' hrow' hid')

theorem lastOf_of_rowsById {rows : List Row} {entry : Text} {i : Nat}
    (h : rowsById entry rows = some i) : LastOf rows entry i := by
  induction rows generalizing i with
  | nil => simp [rowsById] at h
  | cons row rows ih =>
    rw [rowsById] at h
    cases hrest : rowsById entry rows with
    | some j =>
      obtain rfl : j + 1 = i := by simpa [hrest] using h
      obtain ⟨hne, ⟨row', hrow', hid⟩, hlast⟩ := ih hrest
      refine ⟨hne, ⟨row', by simpa using hrow', hid⟩, fun j' row₁ hrow₁ hid₁ => ?_⟩
      cases j' with
      | zero => omega
      | succ j' => exact Nat.succ_le_succ (hlast j' row₁ (by simpa using hrow₁) hid₁)
    | none =>
      simp only [hrest, Option.ite_none_right_eq_some, Option.some.injEq] at h
      obtain ⟨⟨hid, hne⟩, rfl⟩ := h
      refine ⟨hne, ⟨row, rfl, hid⟩, fun j' row₁ hrow₁ hid₁ => ?_⟩
      cases j' with
      | zero => exact le_rfl
      | succ j' =>
        exact absurd hid₁ (rowsById_eq_none hrest hne row₁ (List.mem_of_getElem? (by simpa using hrow₁)))

theorem rowsById_eq_some {rows : List Row} {entry : Text} {i : Nat} :
    rowsById entry rows = some i ↔ LastOf rows entry i := by
  refine ⟨lastOf_of_rowsById, fun h => ?_⟩
  cases hid : rowsById entry rows with
  | some j => rw [(lastOf_of_rowsById hid).unique h]
  | none =>
    obtain ⟨hne, ⟨row, hrow, hrow'⟩, -⟩ := h
    exact absurd hrow' (rowsById_eq_none hid hne row (List.mem_of_getElem? hrow))

/-- A row is the last one of no other id than its own. -/
theorem LastOf.entry_eq {rows : List Row} {a b : Text} {i : Nat} (ha : LastOf rows a i)
    (hb : LastOf rows b i) : a = b := by
  obtain ⟨-, ⟨row, hrow, rfl⟩, -⟩ := ha
  obtain ⟨-, ⟨row', hrow', rfl⟩, -⟩ := hb
  rw [Option.some.inj (hrow.symm.trans hrow')]

-- ---------------------------------------------------------------------------
-- One row
-- ---------------------------------------------------------------------------

/-- The files that are opened for a row of this status are text, and a `PARSE_ERROR`
that is read has a first line. -/
def Markers.Legible (markers : Markers) (current : Text) : Prop :=
  current ≠ ok → markers.metrics ≠ .undecodable ∧
    (markers.metrics = .absent → ¬parseError <+: current → markers.error ≠ .undecodable ∧
      ∀ content, markers.error = .written content → strip (universalNewlines content) ≠ [])

/-- There is something to tell the row of this status. -/
def Markers.Due (markers : Markers) (current : Text) : Prop :=
  current ≠ ok ∧ ((∃ metrics, markers.metrics = .written metrics) ∨
    markers.metrics = .absent ∧ ¬parseError <+: current ∧ markers.error ≠ .absent)

/-- What becomes of a row that is due. -/
inductive Promoted (fieldnames : List Text) (markers : Markers) (row : Row) : Row → Prop
  | measured (metrics : ResultDict) (hmetrics : markers.metrics = .written metrics)
      (hstatus : row.text status ≠ ok) :
      Promoted fieldnames markers row ((fold fieldnames row metrics.entries).set status ok)
  | faulty (e : Text) (hmetrics : markers.metrics = .absent) (hstatus : row.text status ≠ ok)
      (hparse : ¬parseError <+: row.text status) (he : Clean (parseError ++ [':', ' '] ++ e)) :
      Promoted fieldnames markers row (failed row e)

theorem errText_eq {content e : Text} (h : errText content = some e) :
    strip (universalNewlines content) ≠ [] ∧ Clean (parseError ++ [':', ' '] ++ e) := by
  rw [errText] at h
  split_ifs at h with hblank
  obtain rfl := Option.some.inj h
  refine ⟨hblank, ?_, ?_⟩
  · rw [List.mem_append, not_or]
    refine ⟨by decide, fun hcr => ?_⟩
    have := List.mem_takeWhile_imp (List.mem_of_mem_take hcr)
    exact absurd this (by decide)
  · have hlength := (((strip (universalNewlines content)).takeWhile (!isLineBreak ·))).length_take_le 200
    simp only [List.length_append, fieldLimit]
    have : (parseError ++ [':', ' ']).length = 13 := by decide
    simp only [List.length_append] at this
    omega

theorem errText_isSome {content : Text} (h : strip (universalNewlines content) ≠ []) :
    ∃ e, errText content = some e := ⟨_, if_neg h⟩

theorem promote_cases (fieldnames : List Text) (markers : Markers) (row : Row) :
    (∃ e, promote fieldnames markers row = .error e ∧ ¬markers.Legible (row.text status)) ∨
    (promote fieldnames markers row = .ok none ∧ markers.Legible (row.text status) ∧
      ¬markers.Due (row.text status)) ∨
    ∃ row', promote fieldnames markers row = .ok (some row') ∧
      markers.Legible (row.text status) ∧ markers.Due (row.text status) ∧
      Promoted fieldnames markers row row' := by
  by_cases hok : row.text status = ok
  · refine .inr (.inl ⟨?_, fun h => absurd hok h, fun h => h.1 hok⟩)
    obtain ⟨metrics, error⟩ := markers
    cases metrics <;> cases error <;> simp [promote, hok]
  cases hmetrics : markers.metrics with
  | unreadable =>
    refine .inr (.inl ⟨by simp [promote, hmetrics, hok], ?_, ?_⟩)
    · exact fun _ => by simp [hmetrics]
    · rintro ⟨-, ⟨m, hm⟩ | ⟨hm, -⟩⟩ <;> simp [hmetrics] at hm
  | undecodable =>
    exact .inl ⟨.unicodeDecodeError, by simp [promote, hmetrics, hok],
      fun h => (h hok).1 hmetrics⟩
  | written metrics =>
    refine .inr (.inr ⟨_, by simp [promote, hmetrics, hok], ?_, ⟨hok, .inl ⟨_, hmetrics⟩⟩,
      .measured metrics hmetrics hok⟩)
    exact fun _ => by simp [hmetrics]
  | absent =>
    by_cases hparse : parseError <+: row.text status
    · refine .inr (.inl ⟨?_, fun _ => ⟨by simp [hmetrics], fun _ h => absurd hparse h⟩, ?_⟩)
      · cases herror : markers.error <;> simp [promote, hmetrics, herror, hok, hparse]
      · rintro ⟨-, ⟨m, hm⟩ | ⟨-, hm, -⟩⟩
        · simp [hmetrics] at hm
        · exact hm hparse
    · cases herror : markers.error with
      | absent =>
        refine .inr (.inl ⟨by simp [promote, hmetrics, herror], ?_, ?_⟩)
        · exact fun _ => by simp [hmetrics, herror]
        · rintro ⟨-, ⟨m, hm⟩ | ⟨-, -, hm⟩⟩
          · simp [hmetrics] at hm
          · exact hm herror
      | unreadable =>
        refine .inr (.inr ⟨failed row "unknown".toList,
          by simp [promote, hmetrics, herror, hok, hparse], ?_,
          ⟨hok, .inr ⟨hmetrics, hparse, by simp [herror]⟩⟩,
          .faulty _ hmetrics hok hparse (by unfold Clean; decide +kernel)⟩)
        exact fun _ => by simp [hmetrics, herror]
      | undecodable =>
        exact .inl ⟨.unicodeDecodeError, by simp [promote, hmetrics, herror, hok, hparse],
          fun h => ((h hok).2 hmetrics hparse).1 herror⟩
      | written content =>
        by_cases hblank : strip (universalNewlines content) = []
        · exact .inl ⟨.indexError,
            by simp [promote, hmetrics, herror, hok, hparse, errText, hblank],
            fun h => ((h hok).2 hmetrics hparse).2 content herror hblank⟩
        · obtain ⟨e, he⟩ := errText_isSome hblank
          refine .inr (.inr ⟨_, by simp [promote, hmetrics, herror, hok, hparse, he], ?_,
            ⟨hok, .inr ⟨hmetrics, hparse, by simp [herror]⟩⟩,
            .faulty e hmetrics hok hparse (errText_eq he).2⟩)
          exact fun _ => ⟨by simp [hmetrics], fun _ _ => ⟨by simp [herror], by simpa [herror]⟩⟩

section Fold

variable {fieldnames : List Text} {row : Row} {entries : List (Text × Text)} {k v : Text}

theorem fold_cons (e : Text × Text) : fold fieldnames row (e :: entries) =
    fold fieldnames (if e.1 ∈ fieldnames then row.set e.1 e.2 else row) entries := rfl

theorem text_fold_of_not_mem (h : k ∉ entries.map Prod.fst ∨ k ∉ fieldnames) :
    (fold fieldnames row entries).text k = row.text k := by
  induction entries generalizing row with
  | nil => rfl
  | cons e entries ih =>
    rw [fold_cons, ih (h.imp_left fun h hk => h (List.mem_cons_of_mem _ hk))]
    split_ifs with he
    · rw [Row.text_set, if_neg]
      rintro rfl
      exact h.elim (fun h => h List.mem_cons_self) fun h => h he
    · rfl

theorem text_fold_of_mem (hd : (entries.map Prod.fst).Nodup) (h : (k, v) ∈ entries)
    (hk : k ∈ fieldnames) : (fold fieldnames row entries).text k = v := by
  induction entries generalizing row with
  | nil => exact absurd h List.not_mem_nil
  | cons e entries ih =>
    obtain ⟨he, hd⟩ := List.nodup_cons.mp hd
    rw [fold_cons]
    rcases List.mem_cons.mp h with rfl | h
    · rw [text_fold_of_not_mem (.inl he), if_pos hk, Row.text_set, if_pos rfl]
    · exact ih hd h

theorem rest_fold : (fold fieldnames row entries).rest = row.rest := by
  induction entries generalizing row with
  | nil => rfl
  | cons e entries ih =>
    rw [fold_cons, ih]
    split_ifs <;> rfl

theorem keys_fold (h : row.keys ⊆ fieldnames) : (fold fieldnames row entries).keys ⊆ fieldnames := by
  induction entries generalizing row with
  | nil => exact h
  | cons e entries ih =>
    rw [fold_cons]
    refine ih ?_
    split_ifs with he
    · rw [Row.keys_set]
      exact List.append_subset.mpr ⟨h, by simpa using he⟩
    · exact h

end Fold

theorem runId_not_mem_resultKeys : runId ∉ resultKeys := by decide +kernel

theorem status_not_mem_resultKeys : status ∉ resultKeys := by decide +kernel

namespace Promoted

variable {fieldnames : List Text} {markers : Markers} {row row' : Row}

theorem status_ne (h : Promoted fieldnames markers row row') :
    row'.text status ≠ row.text status := by
  cases h with
  | measured metrics hmetrics hstatus => rw [Row.text_set, if_pos rfl]; exact Ne.symm hstatus
  | faulty e hmetrics hstatus hparse he =>
    rw [failed, Row.text_set, if_pos rfl]
    intro heq
    exact hparse (heq ▸ ⟨[':', ' '] ++ e, by simp⟩)

theorem rest_eq (h : Promoted fieldnames markers row row') : row'.rest = row.rest := by
  cases h with
  | measured => exact rest_fold
  | faulty => rfl

theorem keys_subset (h : Promoted fieldnames markers row row') (hkeys : row.keys ⊆ fieldnames)
    (hstatus : status ∈ fieldnames) : row'.keys ⊆ fieldnames := by
  cases h with
  | measured metrics =>
    rw [Row.keys_set]
    exact List.append_subset.mpr ⟨keys_fold hkeys, by simpa using hstatus⟩
  | faulty e =>
    rw [failed, Row.keys_set]
    exact List.append_subset.mpr ⟨hkeys, by simpa using hstatus⟩

theorem text_eq (h : Promoted fieldnames markers row row') {k : Text} (hk : k ≠ status)
    (hkeys : ∀ metrics, markers.metrics = .written metrics → k ∉ metrics.entries.map Prod.fst) :
    row'.text k = row.text k := by
  cases h with
  | measured metrics hmetrics =>
    rw [Row.text_set, if_neg hk, text_fold_of_not_mem (.inl (hkeys metrics hmetrics))]
  | faulty e => rw [failed, Row.text_set, if_neg hk]

theorem text_runId (h : Promoted fieldnames markers row row') :
    row'.text runId = row.text runId := by
  refine h.text_eq (by decide +kernel) fun metrics _ hk => ?_
  obtain ⟨e, he, hrun⟩ := List.mem_map.mp hk
  exact runId_not_mem_resultKeys (hrun ▸ metrics.keys e he)

theorem clean (h : Promoted fieldnames markers row row') (hrow : ∀ k, Clean (row.text k)) (k : Text) :
    Clean (row'.text k) := by
  cases h with
  | measured metrics hmetrics =>
    rw [Row.text_set]
    split_ifs
    · unfold Clean; decide +kernel
    · by_cases hk : k ∈ metrics.entries.map Prod.fst ∧ k ∈ fieldnames
      · obtain ⟨hk, hfield⟩ := hk
        obtain ⟨e, he, rfl⟩ := List.mem_map.mp hk
        rw [text_fold_of_mem metrics.distinct he hfield]
        exact metrics.plain e he
      · rw [text_fold_of_not_mem (not_and_or.mp hk)]
        exact hrow k
  | faulty e hmetrics hstatus hparse he =>
    rw [failed, Row.text_set]
    split_ifs
    · exact he
    · exact hrow k

/-- A promoted row has nothing left to be told. -/
theorem settled (h : Promoted fieldnames markers row row') :
    markers.Legible (row'.text status) ∧ ¬markers.Due (row'.text status) := by
  cases h with
  | measured metrics =>
    rw [Row.text_set, if_pos rfl]
    exact ⟨fun h => absurd rfl h, fun h => h.1 rfl⟩
  | faulty e hmetrics =>
    have hprefix : parseError <+: (failed row e).text status := by
      rw [failed, Row.text_set, if_pos rfl, List.append_assoc]
      exact List.prefix_append _ _
    refine ⟨fun _ => ⟨by simp [hmetrics], fun _ h => absurd hprefix h⟩, ?_⟩
    rintro ⟨-, ⟨metrics, h⟩ | ⟨-, h, -⟩⟩
    · simp [hmetrics] at h
    · exact h hprefix

end Promoted

-- ---------------------------------------------------------------------------
-- The loop
-- ---------------------------------------------------------------------------

/-- The directory with these files is answered by row `i`. -/
def MarkedIn (rows : List Row) (entries : List (Text × Entry)) (i : Nat) (markers : Markers) : Prop :=
  ∃ entry, (entry, .dir markers) ∈ entries ∧ LastOf rows entry i

section Loop

variable {fieldnames : List Text} {rows₀ rows rows' : List Row} {entries : List (Text × Entry)}
  {entry : Text} {e : Entry} {i : Nat} {markers : Markers} {row row' : Row}

theorem MarkedIn.cons (h : MarkedIn rows₀ entries i markers) (x : Text × Entry) :
    MarkedIn rows₀ (x :: entries) i markers :=
  h.imp fun _ h => ⟨List.mem_cons_of_mem _ h.1, h.2⟩

theorem MarkedIn.of_cons (h : MarkedIn rows₀ ((entry, e) :: entries) i markers) :
    (e = .dir markers ∧ LastOf rows₀ entry i) ∨ MarkedIn rows₀ entries i markers := by
  obtain ⟨entry', hmem, hlast⟩ := h
  rcases List.mem_cons.mp hmem with heq | hmem
  · obtain ⟨rfl, rfl⟩ := Prod.mk.inj heq
    exact .inl ⟨rfl, hlast⟩
  · exact .inr ⟨entry', hmem, hlast⟩

theorem not_markedIn (hentry : entry ∉ entries.map Prod.fst) (hlast : LastOf rows₀ entry i) :
    ¬MarkedIn rows₀ entries i markers := by
  rintro ⟨entry', hmem, hlast'⟩
  exact hentry (hlast.entry_eq hlast' ▸ List.mem_map_of_mem hmem)

/-- What the loop makes of row `i`. -/
def Visited (fieldnames : List Text) (rows₀ : List Row) (entries : List (Text × Entry)) (i : Nat)
    (row row' : Row) : Prop :=
  (row' = row ∧ ∀ markers, MarkedIn rows₀ entries i markers →
    markers.Legible (row.text status) ∧ ¬markers.Due (row.text status)) ∨
  ∃ markers, MarkedIn rows₀ entries i markers ∧ markers.Legible (row.text status) ∧
    markers.Due (row.text status) ∧ Promoted fieldnames markers row row'

/-- An entry that leaves the row as it is. -/
theorem Visited.cons (h : Visited fieldnames rows₀ entries i row row')
    (hhead : ∀ markers, e = .dir markers → LastOf rows₀ entry i →
      markers.Legible (row.text status) ∧ ¬markers.Due (row.text status)) :
    Visited fieldnames rows₀ ((entry, e) :: entries) i row row' := by
  rcases h with ⟨heq, hrest⟩ | ⟨markers, hmarked, hrow⟩
  · refine .inl ⟨heq, fun markers hmarked => ?_⟩
    rcases hmarked.of_cons with ⟨he, hlast⟩ | hmarked
    · exact hhead markers he hlast
    · exact hrest markers hmarked
  · exact .inr ⟨markers, hmarked.cons _, hrow⟩

/-- Rows that differ under `f`. -/
def changed {α : Type _} [DecidableEq α] (f : Row → α) (rows rows' : List Row) : Nat :=
  (rows.zip rows').countP fun p => f p.1 ≠ f p.2

theorem changed_self {α : Type _} [DecidableEq α] (f : Row → α) (rows : List Row) :
    changed f rows rows = 0 := by
  induction rows with
  | nil => rfl
  | cons row rows ih => simpa [changed] using ih

theorem changed_set {α : Type _} [DecidableEq α] {f : Row → α} (hrow : rows[i]? = some row)
    (hrow' : rows'[i]? = some row') (hne : f row ≠ f row') :
    changed f rows rows' = changed f (rows.set i row') rows' + 1 := by
  induction rows generalizing rows' i with
  | nil => simp at hrow
  | cons r rows ih =>
    cases rows' with
    | nil => simp at hrow'
    | cons r' rows' =>
      cases i with
      | zero =>
        obtain rfl : r = row := by simpa using hrow
        obtain rfl : r' = row' := by simpa using hrow'
        simp [changed, hne]
      | succ i =>
        have h := @ih rows' i (by simpa using hrow) (by simpa using hrow')
        simp only [changed, List.set_cons_succ, List.zip_cons_cons, List.countP_cons] at h ⊢
        omega

/-- The loop over all entries: what becomes of each row, and of the count. -/
structure Swept (fieldnames : List Text) (rows₀ : List Row) (entries : List (Text × Entry))
    (s s' : List Row × Nat) : Prop where
  length : s'.1.length = s.1.length
  row : ∀ i row, s.1[i]? = some row →
    ∃ row', s'.1[i]? = some row' ∧ Visited fieldnames rows₀ entries i row row'
  upgraded : s'.2 = s.2 + changed (·.text status) s.1 s'.1

theorem sweep_spec {s s' : List Row × Nat} (hd : (entries.map Prod.fst).Nodup)
    (hlength : s.1.length = rows₀.length)
    (h : entries.foldlM (visit fieldnames (rowsById · rows₀)) s = .ok s') :
    Swept fieldnames rows₀ entries s s' := by
  induction entries generalizing s with
  | nil =>
    obtain rfl := Except.ok.inj h
    refine ⟨rfl, fun i row hrow => ⟨row, hrow, .inl ⟨rfl, ?_⟩⟩, by rw [changed_self]; rfl⟩
    rintro markers ⟨entry, hmem, -⟩
    exact absurd hmem List.not_mem_nil
  | cons x entries ih =>
    obtain ⟨entry, e⟩ := x
    obtain ⟨hentry, hrest⟩ := List.nodup_cons.mp hd
    rw [List.foldlM_cons] at h
    -- an entry that changes no row
    have hskip (hvisit : visit fieldnames (rowsById · rows₀) s (entry, e) = .ok s)
        (hhead : ∀ i row markers, s.1[i]? = some row → e = .dir markers → LastOf rows₀ entry i →
          markers.Legible (row.text status) ∧ ¬markers.Due (row.text status)) :
        Swept fieldnames rows₀ ((entry, e) :: entries) s s' := by
      rw [hvisit] at h
      have hs := ih hrest hlength h
      refine ⟨hs.length, fun i row hrow => ?_, hs.upgraded⟩
      obtain ⟨row', hrow', hvisited⟩ := hs.row i row hrow
      exact ⟨row', hrow', hvisited.cons fun markers => hhead i row markers hrow⟩
    cases e with
    | other => exact hskip rfl fun _ _ _ _ he => by simp at he
    | dir markers =>
      cases hid : rowsById entry rows₀ with
      | none =>
        refine hskip (by simp only [visit, hid]) fun i row _ _ _ hlast => ?_
        rw [rowsById_eq_some.mpr hlast] at hid
        simp at hid
      | some i₀ =>
        have hlast₀ := rowsById_eq_some.mp hid
        obtain ⟨row₀, hrow₀⟩ : ∃ row₀, s.1[i₀]? = some row₀ := by
          obtain ⟨-, ⟨row, hrow, -⟩, -⟩ := hlast₀
          have := (List.getElem?_eq_some_iff.mp hrow).1
          exact ⟨_, List.getElem?_eq_getElem (hlength ▸ this)⟩
        rcases promote_cases fieldnames markers row₀ with
          ⟨err, herr, -⟩ | ⟨hnone, hlegible⟩ | ⟨row₁, hsome, hlegible, hdue, hpromoted⟩
        · simp [visit, hid, hrow₀, herr, bind, Except.bind] at h
        · refine hskip (by simp only [visit, hid, hrow₀, hnone]) ?_
          rintro i row markers' hrow he hlast
          obtain rfl := Entry.dir.inj he
          obtain rfl := hlast₀.unique hlast
          obtain rfl := Option.some.inj (hrow₀.symm.trans hrow)
          exact hlegible
        · have hvisit : visit fieldnames (rowsById · rows₀) s (entry, .dir markers) =
              .ok (s.1.set i₀ row₁, s.2 + 1) := by
            simp only [visit, hid, hrow₀, hsome]
          rw [hvisit] at h
          have hs := ih (s := (s.1.set i₀ row₁, s.2 + 1)) hrest (by simpa using hlength) h
          have hlt := (List.getElem?_eq_some_iff.mp hrow₀).1
          -- no later directory is answered by this row
          have hlater : s'.1[i₀]? = some row₁ := by
            obtain ⟨row', hrow', hvisited⟩ := hs.row i₀ row₁ (by simp [hlt])
            rcases hvisited with ⟨rfl, -⟩ | ⟨_, hmarked, -⟩
            · exact hrow'
            · exact absurd hmarked (not_markedIn hentry hlast₀)
          refine ⟨by simpa using hs.length, fun i row hrow => ?_, ?_⟩
          · by_cases hi : i = i₀
            · subst hi
              obtain rfl := Option.some.inj (hrow₀.symm.trans hrow)
              exact ⟨row₁, hlater, .inr ⟨markers, ⟨entry, List.mem_cons_self, hlast₀⟩, hlegible,
                hdue, hpromoted⟩⟩
            · obtain ⟨row', hrow', hvisited⟩ := hs.row i row
                (by rw [List.getElem?_set_ne (Ne.symm hi)]; exact hrow)
              exact ⟨row', hrow', hvisited.cons fun _ _ hlast => absurd (hlast.unique hlast₀) hi⟩
          · have hcount := hs.upgraded
            rw [changed_set hrow₀ hlater hpromoted.status_ne.symm]
            simp only at hcount
            omega

/-- The loop raises nothing when every file it opens can be read. -/
theorem sweep_ok (fieldnames : List Text) {s : List Row × Nat}
    (hd : (entries.map Prod.fst).Nodup)
    (hlegible : ∀ i markers row, MarkedIn rows₀ entries i markers → s.1[i]? = some row →
      markers.Legible (row.text status)) :
    ∃ s', entries.foldlM (visit fieldnames (rowsById · rows₀)) s = .ok s' := by
  induction entries generalizing s with
  | nil => exact ⟨s, rfl⟩
  | cons x entries ih =>
    obtain ⟨entry, e⟩ := x
    obtain ⟨hentry, hrest⟩ := List.nodup_cons.mp hd
    rw [List.foldlM_cons]
    have hskip (hvisit : visit fieldnames (rowsById · rows₀) s (entry, e) = .ok s) :
        ∃ s', (visit fieldnames (rowsById · rows₀) s (entry, e) >>=
          entries.foldlM (visit fieldnames (rowsById · rows₀))) = .ok s' := by
      rw [hvisit]
      exact ih hrest fun i markers row hmarked => hlegible i markers row (hmarked.cons _)
    cases e with
    | other => exact hskip rfl
    | dir markers =>
      cases hid : rowsById entry rows₀ with
      | none => exact hskip (by simp only [visit, hid])
      | some i₀ =>
        have hlast₀ := rowsById_eq_some.mp hid
        cases hrow₀ : s.1[i₀]? with
        | none => exact hskip (by simp only [visit, hid, hrow₀])
        | some row₀ =>
          have hhead := hlegible i₀ markers row₀ ⟨entry, List.mem_cons_self, hlast₀⟩ hrow₀
          rcases promote_cases fieldnames markers row₀ with
            ⟨_, -, hnot⟩ | ⟨hnone, -⟩ | ⟨row₁, hsome, -⟩
          · exact absurd hhead hnot
          · exact hskip (by simp only [visit, hid, hrow₀, hnone])
          · have hvisit : visit fieldnames (rowsById · rows₀) s (entry, .dir markers) =
                .ok (s.1.set i₀ row₁, s.2 + 1) := by
              simp only [visit, hid, hrow₀, hsome]
            rw [hvisit]
            refine ih (s := (s.1.set i₀ row₁, s.2 + 1)) hrest fun i markers row hmarked hrow => ?_
            by_cases hi : i = i₀
            · exact absurd hmarked (not_markedIn hentry (hi ▸ hlast₀))
            · exact hlegible i markers row (hmarked.cons _)
                (by simpa [List.getElem?_set_ne (Ne.symm hi)] using hrow)

/-- A loop that finds nothing to tell. -/
theorem sweep_idle (hd : (entries.map Prod.fst).Nodup)
    (h : ∀ i markers row, MarkedIn rows entries i markers → rows[i]? = some row →
      markers.Legible (row.text status) ∧ ¬markers.Due (row.text status)) :
    entries.foldlM (visit fieldnames (rowsById · rows)) (rows, 0) = .ok (rows, 0) := by
  obtain ⟨⟨rows', n⟩, hs'⟩ := sweep_ok fieldnames (s := (rows, 0)) hd
    fun i markers row hmarked hrow => (h i markers row hmarked hrow).1
  have hs := sweep_spec (s := (rows, 0)) hd rfl hs'
  have hrows : rows' = rows := by
    refine List.ext_getElem? fun i => ?_
    cases hrow : rows[i]? with
    | none =>
      have hlength := hs.length
      simp only [List.getElem?_eq_none_iff] at hrow hlength ⊢
      omega
    | some row =>
      obtain ⟨row', hrow', ⟨rfl, -⟩ | ⟨markers, hmarked, -, hdue, -⟩⟩ := hs.row i row hrow
      · exact hrow'
      · exact absurd hdue (h i markers row hmarked hrow).2
  have hcount := hs.upgraded
  simp only [hrows, changed_self] at hcount
  rw [hs', hrows, hcount]

end Loop

theorem lastOf_congr {rows rows' : List Row}
    (h : rows'.map (·.text runId) = rows.map (·.text runId)) {entry : Text} {i : Nat} :
    LastOf rows' entry i ↔ LastOf rows entry i := by
  have hid (rows : List Row) (j : Nat) : (∃ row, rows[j]? = some row ∧ row.text runId = entry) ↔
      (rows.map (·.text runId))[j]? = some entry := by
    simp
  have hlast (rows : List Row) (j : Nat) :
      (∀ row, rows[j]? = some row → row.text runId = entry → j ≤ i) ↔
        ((rows.map (·.text runId))[j]? = some entry → j ≤ i) := by
    rw [← hid]
    simp
  simp only [LastOf, hid, hlast, h]

-- ---------------------------------------------------------------------------
-- The call
-- ---------------------------------------------------------------------------

def entriesOf (logs : Option RunLogs) : List (Text × Entry) := (logs.map RunLogs.entries).getD []

theorem nodup_entriesOf (logs : Option RunLogs) : ((entriesOf logs).map Prod.fst).Nodup := by
  cases logs with
  | none => exact List.nodup_nil
  | some logs => exact logs.sorted.imp ne_of_lt

/-- A directory of the tree has these files, and row `i` is the last one with its
name. -/
def Marked (logs : Option RunLogs) (rows : List Row) (i : Nat) (markers : Markers) : Prop :=
  MarkedIn rows (entriesOf logs) i markers

/-- Every file that the call opens can be read. -/
def Legible (logs : Option RunLogs) (rows : List Row) : Prop :=
  ∀ i markers row, Marked logs rows i markers → rows[i]? = some row →
    markers.Legible (row.text status)

/-- Some row is told something. -/
def Due (logs : Option RunLogs) (rows : List Row) : Prop :=
  ∃ i markers row, Marked logs rows i markers ∧ rows[i]? = some row ∧
    markers.Due (row.text status)

section Call

variable {text : Text} {fieldnames : List Text} {rows rows' : List Row} {logs : Option RunLogs}
  {i : Nat} {markers markers' : Markers} {row row' : Row} {n : Nat}

theorem Marked.unique (h : Marked logs rows i markers) (h' : Marked logs rows i markers') :
    markers = markers' := by
  obtain ⟨entry, hmem, hlast⟩ := h
  obtain ⟨entry', hmem', hlast'⟩ := h'
  obtain rfl := hlast.entry_eq hlast'
  have := List.inj_on_of_nodup_map (nodup_entriesOf logs) hmem hmem' rfl
  exact Entry.dir.inj (Prod.mk.inj this).2

/-- A table without rows and a tree that does not exist are loops without work. -/
theorem reconcile_eq (h : readTable text = .ok (fieldnames, rows)) : reconcile (some text) logs =
    ((entriesOf logs).foldlM (visit fieldnames (rowsById · rows)) (rows, 0) >>= fun s =>
      if s.2 = 0 then .ok (some text, 0)
      else rewrite fieldnames s.1 >>= fun text' => .ok (some text', s.2)) := by
  have hnone (entries : List (Text × Entry)) :
      entries.foldlM (visit fieldnames (rowsById · [])) ([], 0) = .ok ([], 0) := by
    induction entries with
    | nil => rfl
    | cons x entries ih =>
      obtain ⟨entry, _ | markers⟩ := x
      · exact ih
      · exact ih
  simp only [reconcile, h, bind, Except.bind, pure, Except.pure]
  by_cases hrows : rows = []
  · subst hrows
    rw [hnone]
    rfl
  · rw [if_neg hrows]
    cases logs <;> rfl

/-- What a call makes of the rows when it raises nothing. -/
structure Settled (logs : Option RunLogs) (fieldnames : List Text) (rows rows' : List Row) : Prop where
  length : rows'.length = rows.length
  row : ∀ i row, rows[i]? = some row → ∃ row', rows'[i]? = some row' ∧
    Visited fieldnames rows (entriesOf logs) i row row'

theorem Settled.get (h : Settled logs fieldnames rows rows') (hrow : rows[i]? = some row)
    (hrow' : rows'[i]? = some row') : Visited fieldnames rows (entriesOf logs) i row row' := by
  obtain ⟨row₁, hrow₁, hvisited⟩ := h.row i row hrow
  exact Option.some.inj (hrow₁.symm.trans hrow') ▸ hvisited

theorem Settled.exists_row (h : Settled logs fieldnames rows rows') (hrow' : row' ∈ rows') :
    ∃ i row, rows[i]? = some row ∧ rows'[i]? = some row' ∧
      Visited fieldnames rows (entriesOf logs) i row row' := by
  obtain ⟨i, hi⟩ := List.getElem?_of_mem hrow'
  have hlt : i < rows.length := h.length ▸ (List.getElem?_eq_some_iff.mp hi).1
  exact ⟨i, _, List.getElem?_eq_getElem hlt, hi, h.get (List.getElem?_eq_getElem hlt) hi⟩

theorem Settled.rest_eq (h : Settled logs fieldnames rows rows') (hrow : rows[i]? = some row)
    (hrow' : rows'[i]? = some row') : row'.rest = row.rest := by
  rcases h.get hrow hrow' with ⟨rfl, -⟩ | ⟨_, -, -, -, hpromoted⟩
  · rfl
  · exact hpromoted.rest_eq

theorem Settled.due (h : Settled logs fieldnames rows rows') :
    0 < changed (·.text status) rows rows' ↔ Due logs rows := by
  rw [changed, List.countP_pos_iff]
  constructor
  · rintro ⟨⟨row, row'⟩, hmem, hne⟩
    obtain ⟨i, hi⟩ := List.getElem?_of_mem hmem
    obtain ⟨hrow, hrow'⟩ := List.getElem?_zip_eq_some.mp hi
    rcases h.get hrow hrow' with ⟨heq, -⟩ | ⟨markers, hmarked, -, hdue, -⟩
    · simp [show row' = row from heq] at hne
    · exact ⟨i, markers, row, hmarked, hrow, hdue⟩
  · rintro ⟨i, markers, row, hmarked, hrow, hdue⟩
    obtain ⟨row', hrow', hvisited⟩ := h.row i row hrow
    refine ⟨(row, row'), List.mem_of_getElem? (List.getElem?_zip_eq_some.mpr ⟨hrow, hrow'⟩), ?_⟩
    rcases hvisited with ⟨-, hidle⟩ | ⟨_, -, -, -, hpromoted⟩
    · exact absurd hdue (hidle markers hmarked).2
    · simpa using hpromoted.status_ne.symm

theorem Settled.legible (h : Settled logs fieldnames rows rows') : Legible logs rows := by
  intro i markers row hmarked hrow
  obtain ⟨row', hrow', ⟨-, hidle⟩ | ⟨markers', hmarked', hlegible, -⟩⟩ := h.row i row hrow
  · exact (hidle markers hmarked).1
  · rwa [hmarked.unique hmarked']

theorem exists_settled (fieldnames : List Text) (hlegible : Legible logs rows) :
    ∃ rows', Settled logs fieldnames rows rows' ∧
    (entriesOf logs).foldlM (visit fieldnames (rowsById · rows)) (rows, 0) =
      .ok (rows', changed (·.text status) rows rows') := by
  obtain ⟨⟨rows', n⟩, hs'⟩ := sweep_ok fieldnames (s := (rows, 0))
    (nodup_entriesOf logs) hlegible
  have hs := sweep_spec (s := (rows, 0)) (nodup_entriesOf logs) rfl hs'
  have hcount := hs.upgraded
  simp only [Nat.zero_add] at hcount
  exact ⟨rows', ⟨hs.length, hs.row⟩, by rw [hs', hcount]⟩

/-- What a call writes. -/
def tableText (fieldnames : List Text) (rows : List Row) : Text :=
  excel.write (fieldnames :: rows.map fun row => fieldnames.map row.text)

/-- When the call goes through: what it opens can be read, and once there is
something to write, every row fits the header. -/
theorem reconcile_ok (h : readTable text = .ok (fieldnames, rows)) (hlegible : Legible logs rows)
    (hdue : Due logs rows → status ∈ fieldnames ∧ ∀ row ∈ rows, row.rest = none) :
    ∃ rows', Settled logs fieldnames rows rows' ∧
      (¬Due logs rows ∧ rows' = rows ∧ reconcile (some text) logs = .ok (some text, 0) ∨
        Due logs rows ∧ reconcile (some text) logs =
          .ok (some (tableText fieldnames rows'), changed (·.text status) rows rows')) := by
  obtain ⟨rows', hsettled, hsweep⟩ := exists_settled fieldnames hlegible
  refine ⟨rows', hsettled, ?_⟩
  rw [reconcile_eq h, hsweep]
  by_cases hd : Due logs rows
  · refine .inr ⟨hd, ?_⟩
    obtain ⟨hstatus, hrest⟩ := hdue hd
    have hfits : ∀ row' ∈ rows', row'.Fits fieldnames := by
      intro row' hrow'
      obtain ⟨i, row, hrow, hi, hvisited⟩ := hsettled.exists_row hrow'
      have hmem := List.mem_of_getElem? hrow
      have hkeys := ((readTable_clean h).2 row hmem).1
      refine ⟨(hsettled.rest_eq hrow hi).trans (hrest row hmem), ?_⟩
      rcases hvisited with ⟨rfl, -⟩ | ⟨_, -, -, -, hpromoted⟩
      · exact hkeys ▸ List.Subset.refl _
      · exact hpromoted.keys_subset (hkeys ▸ List.Subset.refl _) hstatus
    have hpos := hsettled.due.mpr hd
    simp only [bind, Except.bind, rewrite_eq hfits, if_neg hpos.ne']
    rfl
  · have hzero : changed (·.text status) rows rows' = 0 := by
      have := hsettled.due.not.mpr hd
      omega
    refine .inl ⟨hd, ?_, by simp only [bind, Except.bind, hzero, if_pos]⟩
    refine List.ext_getElem? fun i => ?_
    cases hrow : rows[i]? with
    | none =>
      have hlength := hsettled.length
      simp only [List.getElem?_eq_none_iff] at hrow ⊢
      omega
    | some row =>
      obtain ⟨row', hrow', ⟨rfl, -⟩ | ⟨markers, hmarked, -, hdue', -⟩⟩ := hsettled.row i row hrow
      · exact hrow'
      · exact absurd ⟨i, markers, row, hmarked, hrow, hdue'⟩ hd

/-- It goes through in no other case. -/
theorem legible_of_reconcile {file : Option Text} (h : readTable text = .ok (fieldnames, rows))
    (hok : reconcile (some text) logs = .ok (file, n)) :
    Legible logs rows ∧ (Due logs rows → ∀ row ∈ rows, row.rest = none) := by
  rw [reconcile_eq h] at hok
  cases hs' : (entriesOf logs).foldlM (visit fieldnames (rowsById · rows)) (rows, 0) with
  | error e => simp [hs', bind, Except.bind] at hok
  | ok s =>
    have hs := sweep_spec (s := (rows, 0)) (nodup_entriesOf logs) rfl hs'
    have hsettled : Settled logs fieldnames rows s.1 := ⟨hs.length, hs.row⟩
    refine ⟨hsettled.legible, fun hdue row hrow => ?_⟩
    have hpos := hsettled.due.mpr hdue
    have hcount := hs.upgraded
    simp only [Nat.zero_add] at hcount
    simp only [hs', bind, Except.bind, if_neg (show s.2 ≠ 0 by omega)] at hok
    cases hwrite : rewrite fieldnames s.1 with
    | error e => simp [hwrite] at hok
    | ok text' =>
      obtain ⟨i, hi⟩ := List.getElem?_of_mem hrow
      obtain ⟨row', hi', -⟩ := hsettled.row i row hi
      rw [← hsettled.rest_eq hi hi']
      exact rest_of_rewrite hwrite row' (List.mem_of_getElem? hi')

/-- A row that was written and read again. -/
def Row.reread (fieldnames : List Text) (row : Row) : Row :=
  dictRow fieldnames (fieldnames.map row.text)

theorem Row.text_reread (hkeys : row.keys ⊆ fieldnames) (k : Text) :
    (row.reread fieldnames).text k = row.text k := by
  by_cases hk : k ∈ fieldnames
  · exact text_dictRow_map row.text hk
  · rw [text_of_not_mem (fun h => hk (hkeys h)),
      text_of_not_mem fun h => hk (by rwa [Row.reread, keys_dictRow] at h)]

theorem readTable_tableText (hne : fieldnames ≠ []) (hnames : ∀ k ∈ fieldnames, Clean k)
    (hclean : ∀ row ∈ rows, ∀ k ∈ fieldnames, Clean (row.text k)) :
    readTable (tableText fieldnames rows) =
      .ok (fieldnames, rows.map (Row.reread fieldnames)) := by
  rw [tableText, readTable_write hnames, List.map_map]
  · rfl
  · intro record hrecord t ht
    obtain ⟨row, hrow, rfl⟩ := List.mem_map.mp hrecord
    obtain ⟨k, hk, rfl⟩ := List.mem_map.mp ht
    exact hclean row hrow k hk
  · intro record hrecord
    obtain ⟨row, -, rfl⟩ := List.mem_map.mp hrecord
    simpa using hne

theorem Settled.clean (h : Settled logs fieldnames rows rows')
    (hrows : ∀ row ∈ rows, ∀ k, Clean (row.text k)) : ∀ row ∈ rows', ∀ k, Clean (row.text k) := by
  intro row' hrow' k
  obtain ⟨i, row, hrow, -, ⟨rfl, -⟩ | ⟨_, -, -, -, hpromoted⟩⟩ := h.exists_row hrow'
  · exact hrows _ (List.mem_of_getElem? hrow) k
  · exact hpromoted.clean (hrows row (List.mem_of_getElem? hrow)) k

theorem Settled.keys_subset (h : Settled logs fieldnames rows rows') (hstatus : status ∈ fieldnames)
    (hrows : ∀ row ∈ rows, row.keys = fieldnames) : ∀ row ∈ rows', row.keys ⊆ fieldnames := by
  intro row' hrow'
  obtain ⟨i, row, hrow, -, ⟨rfl, -⟩ | ⟨_, -, -, -, hpromoted⟩⟩ := h.exists_row hrow'
  · exact hrows _ (List.mem_of_getElem? hrow) ▸ List.Subset.refl _
  · exact hpromoted.keys_subset (hrows _ (List.mem_of_getElem? hrow) ▸ List.Subset.refl _) hstatus

theorem Settled.ids (h : Settled logs fieldnames rows rows') :
    rows'.map (·.text runId) = rows.map (·.text runId) := by
  refine List.ext_getElem? fun i => ?_
  simp only [List.getElem?_map]
  cases hrow : rows[i]? with
  | none =>
    have : rows'[i]? = none := by
      have := h.length
      simp only [List.getElem?_eq_none_iff] at hrow ⊢
      omega
    rw [this]
  | some row =>
    obtain ⟨row', hrow', ⟨rfl, -⟩ | ⟨_, -, -, -, hpromoted⟩⟩ := h.row i row hrow
    · rw [hrow']
    · rw [hrow', Option.map_some, Option.map_some, hpromoted.text_runId]

/-- A second pass over rows with the same texts has nothing to tell. -/
theorem Settled.idle (h : Settled logs fieldnames rows rows') {again : List Row}
    (hagain : ∀ k, again.map (·.text k) = rows'.map (·.text k))
    (hmarked : Marked logs again i markers) (hrow : again[i]? = some row) :
    markers.Legible (row.text status) ∧ ¬markers.Due (row.text status) := by
  have hids := (hagain runId).trans h.ids
  have hmarked' : Marked logs rows i markers :=
    hmarked.imp fun _ h => ⟨h.1, (lastOf_congr hids).mp h.2⟩
  obtain ⟨row', hrow', hstatus⟩ : ∃ row', rows'[i]? = some row' ∧ row'.text status = row.text status := by
    have := congrArg (·[i]?) (hagain status)
    simp only [List.getElem?_map, hrow, Option.map_some] at this
    exact Option.map_eq_some_iff.mp this.symm
  have hlt : i < rows.length := h.length ▸ (List.getElem?_eq_some_iff.mp hrow').1
  rw [← hstatus]
  rcases h.get (List.getElem?_eq_getElem hlt) hrow' with ⟨rfl, hidle⟩ | ⟨_, hmarked₁, -, -, hpromoted⟩
  · exact hidle markers hmarked'
  · exact hmarked'.unique hmarked₁ ▸ hpromoted.settled

end Call

-- ---------------------------------------------------------------------------
-- One call settles the file
-- ---------------------------------------------------------------------------

/-- A row as the file shows it under its header. -/
def cellsOf (fieldnames : List Text) (row : Row) : List Text := fieldnames.map row.text

/-- Rows stay in their places. A row changes only when it is the last one that names
a directory and is not `OK`; it becomes `OK` only with the metrics of that directory. -/
structure Reconciled (logs : Option RunLogs) (fieldnames : List Text) (rows rows' : List Row)
    (n : Nat) : Prop where
  length : rows'.length = rows.length
  frame : ∀ i row row', rows[i]? = some row → rows'[i]? = some row' →
    cellsOf fieldnames row' ≠ cellsOf fieldnames row →
      row.text status ≠ ok ∧ ∃ markers, Marked logs rows i markers
  metrics : ∀ i row row', rows[i]? = some row → rows'[i]? = some row' →
    row'.text status = ok → row.text status ≠ ok →
      ∃ markers metrics, Marked logs rows i markers ∧ markers.metrics = .written metrics ∧
        ∀ e ∈ metrics.entries, e.1 ∈ fieldnames → row'.text e.1 = e.2
  upgraded : n = changed (cellsOf fieldnames) rows rows'

/-- The call succeeds with such a table, and a second call changes nothing. -/
def Reconciles (text : Text) (logs : Option RunLogs) (fieldnames : List Text) (rows : List Row) :
    Prop :=
  ∃ text' rows' n, reconcile (some text) logs = .ok (some text', n) ∧
    readTable text' = .ok (fieldnames, rows') ∧ Reconciled logs fieldnames rows rows' n ∧
    reconcile (some text') logs = .ok (some text', 0)

section Settles

variable {text : Text} {fieldnames : List Text} {rows rows' again : List Row}
  {logs : Option RunLogs}

theorem changed_eq_of_map {f : Row → List Text}
    (h : again.map f = rows'.map f) : changed f rows again = changed f rows rows' := by
  have hmap (rows' : List Row) : changed f rows rows' =
      ((rows.map f).zip (rows'.map f)).countP fun p => p.1 ≠ p.2 := by
    rw [List.zip_map, List.countP_map]
    rfl
  rw [hmap, hmap, h]

theorem Settled.changed_cellsOf (h : Settled logs fieldnames rows rows')
    (hstatus : status ∈ fieldnames) :
    changed (cellsOf fieldnames) rows rows' = changed (·.text status) rows rows' := by
  refine List.countP_congr fun p hp => ?_
  obtain ⟨i, hi⟩ := List.getElem?_of_mem hp
  obtain ⟨hrow, hrow'⟩ := List.getElem?_zip_eq_some.mp hi
  simp only [decide_eq_true_eq]
  rcases h.get hrow hrow' with ⟨heq, -⟩ | ⟨_, -, -, -, hpromoted⟩
  · simp [heq]
  · refine iff_of_true (fun hcells => ?_) hpromoted.status_ne.symm
    exact hpromoted.status_ne.symm (List.map_inj_left.mp hcells status hstatus)

theorem Settled.reconciled (h : Settled logs fieldnames rows rows') (hstatus : status ∈ fieldnames)
    (hagain : ∀ k, again.map (·.text k) = rows'.map (·.text k)) :
    Reconciled logs fieldnames rows again (changed (·.text status) rows rows') := by
  have hlength : again.length = rows'.length := by
    simpa using congrArg List.length (hagain status)
  have hrow {i : Nat} {row₁ : Row} (hi : again[i]? = some row₁) :
      ∃ row', rows'[i]? = some row' ∧ ∀ k, row₁.text k = row'.text k := by
    have hlt := hlength ▸ (List.getElem?_eq_some_iff.mp hi).1
    refine ⟨_, List.getElem?_eq_getElem hlt, fun k => ?_⟩
    have := congrArg (·[i]?) (hagain k)
    simpa [List.getElem?_map, hi, hlt] using this
  refine ⟨hlength.trans h.length, fun i row row₁ hi hi₁ hne => ?_,
    fun i row row₁ hi hi₁ hok hnot => ?_, ?_⟩
  · obtain ⟨row', hi', htext⟩ := hrow hi₁
    rcases h.get hi hi' with ⟨rfl, -⟩ | ⟨markers, hmarked, -, hdue, -⟩
    · exact absurd (List.map_congr_left fun k _ => htext k) hne
    · exact ⟨hdue.1, markers, hmarked⟩
  · obtain ⟨row', hi', htext⟩ := hrow hi₁
    rw [htext] at hok
    rcases h.get hi hi' with ⟨rfl, -⟩ | ⟨markers, hmarked, -, -, hpromoted⟩
    · exact absurd hok hnot
    · cases hpromoted with
      | measured metrics hmetrics =>
        refine ⟨markers, metrics, hmarked, hmetrics, fun e he hk => ?_⟩
        have hne : e.1 ≠ status := fun heq =>
          status_not_mem_resultKeys (heq ▸ metrics.keys e he)
        rw [htext, Row.text_set, if_neg hne, text_fold_of_mem metrics.distinct he hk]
      | faulty e =>
        rw [failed, Row.text_set, if_pos rfl] at hok
        have hprefix : parseError <+: ok := ⟨[':', ' '] ++ e, by rw [← hok, List.append_assoc]⟩
        exact absurd hprefix (by decide +kernel)
  · have hcells : again.map (cellsOf fieldnames) = rows'.map (cellsOf fieldnames) := by
      refine List.ext_getElem (by simpa using hlength) fun i hi hi' => ?_
      obtain ⟨row', hi', htext⟩ := hrow (List.getElem?_eq_getElem (by simpa using hi))
      obtain ⟨hlt, rfl⟩ := List.getElem?_eq_some_iff.mp hi'
      simp only [List.getElem_map]
      exact List.map_congr_left fun k _ => htext k
    rw [changed_eq_of_map hcells, h.changed_cellsOf hstatus]

/-- A call with a file whose table has a status settles it, unless a file it opens
cannot be read or a row it writes is longer than the header. -/
theorem reconcile_settles (text : Text) (logs : Option RunLogs) (fieldnames : List Text)
    (rows : List Row) (htable : readTable text = .ok (fieldnames, rows))
    (hstatus : status ∈ fieldnames) :
    Reconciles text logs fieldnames rows ↔
      Legible logs rows ∧ (Due logs rows → ∀ row ∈ rows, row.rest = none) := by
  constructor
  · rintro ⟨text', rows', n, hok, -⟩
    exact legible_of_reconcile htable hok
  · rintro ⟨hlegible, hrest⟩
    obtain ⟨hnames, hrows⟩ := readTable_clean htable
    obtain ⟨rows', hsettled, ⟨hdue, rfl, hok⟩ | ⟨hdue, hok⟩⟩ :=
      reconcile_ok htable hlegible fun hdue => ⟨hstatus, hrest hdue⟩
    · have hcount := hsettled.reconciled hstatus fun _ => rfl
      rw [changed_self] at hcount
      exact ⟨text, rows', 0, hok, htable, hcount, hok⟩
    · have hne : fieldnames ≠ [] := List.ne_nil_of_mem hstatus
      have hclean := hsettled.clean fun row hrow => (hrows row hrow).2
      have hkeys := hsettled.keys_subset hstatus fun row hrow => (hrows row hrow).1
      have hread := readTable_tableText hne hnames fun row hrow k _ => hclean row hrow k
      have hagain (k : Text) : (rows'.map (Row.reread fieldnames)).map (·.text k) =
          rows'.map (·.text k) := by
        rw [List.map_map]
        exact List.map_congr_left fun row hrow => Row.text_reread (hkeys row hrow) k
      refine ⟨_, _, _, hok, hread, hsettled.reconciled hstatus hagain, ?_⟩
      rw [reconcile_eq hread, sweep_idle (nodup_entriesOf logs)
        fun i markers row hmarked hrow => hsettled.idle hagain hmarked hrow]
      rfl

end Settles

-- ---------------------------------------------------------------------------
-- A run whose logs were downloaded
-- ---------------------------------------------------------------------------

def downloadedText : Text := "run_id,tps,status\r\nr1,,DOWNLOADED\r\n".toList

def downloadedNames : List Text := ["run_id".toList, "tps".toList, "status".toList]

def downloadedRow : Row :=
  ⟨[("run_id".toList, some "r1".toList), ("tps".toList, some []),
    ("status".toList, some "DOWNLOADED".toList)], none⟩

/-- The tree with the one directory `r1`. -/
def logsOfR1 (metrics : MetricsFile) : RunLogs where
  entries := [("r1".toList, .dir ⟨metrics, .absent⟩)]
  sorted := List.pairwise_singleton _ _

def threeTps : ResultDict where
  entries := [("tps".toList, "3.0".toList)]
  keys := by decide +kernel
  distinct := by decide +kernel
  plain := by decide +kernel

theorem reconcile_settles_downloaded :
    Reconciles downloadedText (some (logsOfR1 (.written threeTps))) downloadedNames [downloadedRow] := by
  refine (reconcile_settles downloadedText (some (logsOfR1 (.written threeTps))) downloadedNames
    [downloadedRow] (by decide +kernel) (by decide +kernel)).mpr ⟨?_, fun _ => by decide +kernel⟩
  rintro i markers row ⟨entry, hmem, -⟩ - -
  obtain ⟨-, rfl⟩ : entry = "r1".toList ∧ markers = ⟨.written threeTps, .absent⟩ := by
    simpa [entriesOf, logsOfR1] using hmem
  exact ⟨by simp, by simp⟩

/-- A metrics file that is no text at all stops the call for every row. -/
theorem undecodable_metrics :
    readTable downloadedText = .ok (downloadedNames, [downloadedRow]) ∧ status ∈ downloadedNames ∧
      reconcile (some downloadedText) (some (logsOfR1 .undecodable)) =
        .error .unicodeDecodeError ∧
      ¬Reconciles downloadedText (some (logsOfR1 .undecodable)) downloadedNames
        [downloadedRow] := by
  have hraise : reconcile (some downloadedText) (some (logsOfR1 .undecodable)) =
      .error .unicodeDecodeError := by decide +kernel
  refine ⟨by decide +kernel, by decide +kernel, hraise, ?_⟩
  rintro ⟨text', rows', n, hok, -⟩
  rw [hraise] at hok
  exact absurd hok (by simp)

end HotStuffTx.ResultFile
