import HotStuffTx.Lib.Run
import HotStuffTx.Reconcile

/-!
# Appending to the result file

Runs of `append_row` and `reconcile_csv` on one path, in any order. The lock makes
every call one step. As long as every sweep writes the columns that the header
names, each appended row is read back with its values, but for those that the
reconciler wrote.
-/

set_option linter.unusedSectionVars false

namespace HotStuffTx.ResultFile

open Csv (excel)

/-- A call of `append_row` with a row over its field names. -/
structure Append where
  fieldnames : List Text
  row : Row
  fits : row.Fits fieldnames

inductive Op
  | append (a : Append)
  | reconcile (logs : Option RunLogs)

/-- The file, what was appended to it, which columns of which row the reconciler
wrote, and whether a call has raised. -/
structure World where
  file : Option Text
  given : List Append := []
  rewrote : Nat → Text → Prop := fun _ _ => False
  failed : Bool := false

/-- The rows of the file, when it can be read. -/
def rowsOf (file : Option Text) : List Row :=
  match readTable (file.getD []) with
  | .ok (_, rows) => rows
  | .error _ => []

/-- The call writes the column of the row: the status, or a metric of its directory. -/
def Rewrites (logs : Option RunLogs) (rows : List Row) (i : Nat) (k : Text) : Prop :=
  ∃ markers row, Marked logs rows i markers ∧ rows[i]? = some row ∧
    markers.Due (row.text status) ∧
    (k = status ∨ ∃ metrics, markers.metrics = .written metrics ∧
      k ∈ metrics.entries.map Prod.fst)

def World.step (w : World) : Op → World
  | .append a =>
    match appendRow w.file a.fieldnames a.row with
    | (text, .ok ()) => { w with file := some text, given := w.given ++ [a] }
    | (text, .error _) => { w with file := some text, failed := true }
  | .reconcile logs =>
    match reconcile w.file logs with
    | .ok (file, _) =>
      { w with file, rewrote := fun i k => w.rewrote i k ∨ Rewrites logs (rowsOf w.file) i k }
    | .error _ => { w with failed := true }

/-- No call has raised, and the file holds the appended rows in their order, each
with the values it was given. -/
def World.Intact (w : World) : Prop :=
  w.failed = false ∧ ∃ fieldnames rows, readTable (w.file.getD []) = .ok (fieldnames, rows) ∧
    rows.length = w.given.length ∧
    ∀ i a row, w.given[i]? = some a → rows[i]? = some row →
      row.rest = none ∧ a.fieldnames ⊆ row.keys ∧
        ∀ k ∈ a.fieldnames, ¬w.rewrote i k → row.text k = a.row.text k

/-- All rows are appended with the same columns, at least one, in texts that the
reader takes as they are. The reconciler can read what it opens, and when there is
something to tell, there is a status column to tell it in. -/
def World.Admits (w : World) : Op → Prop
  | .append a => a.fieldnames ≠ [] ∧ (∀ b ∈ w.given, b.fieldnames = a.fieldnames) ∧
      ∀ k ∈ a.fieldnames, Clean k ∧ Clean (a.row.text k)
  | .reconcile logs => Legible logs (rowsOf w.file) ∧
      (Due logs (rowsOf w.file) → ∀ b ∈ w.given, status ∈ b.fieldnames)

-- ---------------------------------------------------------------------------
-- The file along a run
-- ---------------------------------------------------------------------------

/-- The file is the table of rows that hold what was given. -/
structure World.Table (w : World) (fieldnames : List Text) (rows : List Row) : Prop where
  file : w.file = some (tableText fieldnames rows)
  nonempty : fieldnames ≠ []
  names : ∀ k ∈ fieldnames, Clean k
  given : w.given ≠ []
  same : ∀ b ∈ w.given, b.fieldnames = fieldnames
  fits : ∀ row ∈ rows, row.Fits fieldnames
  clean : ∀ row ∈ rows, ∀ k, Clean (row.text k)
  length : rows.length = w.given.length
  values : ∀ i a row, w.given[i]? = some a → rows[i]? = some row →
    ∀ k ∈ fieldnames, ¬w.rewrote i k → row.text k = a.row.text k

/-- Before the first row there is no file, or an empty one. -/
structure World.Ok (w : World) : Prop where
  failed : w.failed = false
  file : (w.given = [] ∧ w.file.getD [] = []) ∨ ∃ fieldnames rows, w.Table fieldnames rows

variable {w : World} {fieldnames : List Text} {rows : List Row} {row : Row}

theorem writeRecord_ne_nil (record : List Text) : excel.writeRecord record ≠ [] := by
  simp [Csv.Dialect.writeRecord]

theorem tableText_ne_nil : tableText fieldnames rows ≠ [] := by
  rw [tableText, Csv.Dialect.write, List.flatMap_cons]
  exact List.append_ne_nil_of_left_ne_nil (writeRecord_ne_nil fieldnames) _

theorem tableText_append : tableText fieldnames rows ++ excel.writeRecord (fieldnames.map row.text) =
    tableText fieldnames (rows ++ [row]) := by
  simp [tableText, Csv.Dialect.write, List.flatMap_append]

theorem Row.Fits.clean (h : row.Fits fieldnames) (hclean : ∀ k ∈ fieldnames, Clean (row.text k))
    (k : Text) : Clean (row.text k) := by
  by_cases hk : k ∈ fieldnames
  · exact hclean k hk
  · rw [Row.text_of_not_mem fun h' => hk (h.2 h')]
    exact .nil

theorem World.Table.read (h : w.Table fieldnames rows) :
    readTable (w.file.getD []) = .ok (fieldnames, rows.map (Row.reread fieldnames)) := by
  rw [h.file, Option.getD_some]
  exact readTable_tableText h.nonempty h.names fun row hrow k _ => h.clean row hrow k

/-- What is read back of a row that was written. -/
theorem World.Table.get {i : Nat} (h : w.Table fieldnames rows)
    (hrow : (rows.map (Row.reread fieldnames))[i]? = some row) :
    ∃ row₀, rows[i]? = some row₀ ∧ row.rest = none ∧ row.keys = fieldnames ∧
      ∀ k, row.text k = row₀.text k := by
  rw [List.getElem?_map] at hrow
  obtain ⟨row₀, hrow₀, rfl⟩ := Option.map_eq_some_iff.mp hrow
  exact ⟨row₀, hrow₀, rest_dictRow_map fieldnames row₀.text, keys_dictRow _ _,
    Row.text_reread (h.fits row₀ (List.mem_of_getElem? hrow₀)).2⟩

theorem World.Ok.intact (h : w.Ok) : w.Intact := by
  refine ⟨h.failed, ?_⟩
  rcases h.file with ⟨hgiven, hfile⟩ | ⟨fieldnames, rows, htable⟩
  · rw [hgiven, hfile]
    exact ⟨[], [], by decide +kernel, rfl, fun i a row ha => by simp at ha⟩
  · refine ⟨fieldnames, _, htable.read, by simpa using htable.length, fun i a row ha hrow => ?_⟩
    obtain ⟨row₀, hrow₀, hrest, hkeys, htext⟩ := htable.get hrow
    have hsame := htable.same a (List.mem_of_getElem? ha)
    refine ⟨hrest, by rw [hsame, hkeys]; exact List.Subset.refl _, fun k hk hnot => ?_⟩
    rw [htext]
    exact htable.values i a row₀ ha hrow₀ k (hsame ▸ hk) hnot

theorem World.Ok.append (h : w.Ok) (a : Append) (ha : w.Admits (.append a)) :
    (w.step (.append a)).Ok := by
  obtain ⟨hne, hsame, hclean⟩ := ha
  have hrow := a.fits.clean fun k hk => (hclean k hk).2
  rcases h.file with ⟨hgiven, hfile⟩ | ⟨fieldnames, rows, htable⟩
  · have hstep : w.step (.append a) = { w with
        file := some (tableText a.fieldnames [a.row]), given := [a] } := by
      simp [step, appendRow, hfile, writeRow_eq a.fits, hgiven, tableText, Csv.Dialect.write]
    rw [hstep]
    refine ⟨h.failed, .inr ⟨a.fieldnames, [a.row], rfl, hne, fun k hk => (hclean k hk).1, by simp, ?_, ?_, ?_,
      rfl, ?_⟩⟩
    · exact fun b hb => List.mem_singleton.mp hb ▸ rfl
    · exact fun row hrow => List.mem_singleton.mp hrow ▸ a.fits
    · exact fun row hrow' => List.mem_singleton.mp hrow' ▸ hrow
    · intro i b row hb hrow k hk _
      cases i with
      | zero => rw [← Option.some.inj hb, ← Option.some.inj hrow]
      | succ i => simp at hb
  · obtain ⟨b, hb⟩ := List.exists_mem_of_ne_nil _ htable.given
    obtain rfl : fieldnames = a.fieldnames := (htable.same b hb).symm.trans (hsame b hb)
    have hstep : w.step (.append a) = { w with
        file := some (tableText a.fieldnames (rows ++ [a.row])), given := w.given ++ [a] } := by
      simp [step, appendRow, htable.file, tableText_ne_nil, writeRow_eq a.fits, tableText_append]
    rw [hstep]
    refine ⟨h.failed, .inr ⟨a.fieldnames, rows ++ [a.row], rfl, hne, htable.names, by simp, ?_, ?_, ?_,
      by simpa using htable.length, ?_⟩⟩
    · exact List.forall_mem_append.mpr ⟨htable.same, fun b hb => List.mem_singleton.mp hb ▸ rfl⟩
    · exact List.forall_mem_append.mpr
        ⟨htable.fits, fun row hrow => List.mem_singleton.mp hrow ▸ a.fits⟩
    · exact List.forall_mem_append.mpr
        ⟨htable.clean, fun row hrow' => List.mem_singleton.mp hrow' ▸ hrow⟩
    · intro i b row hb hrow k hk hnot
      rcases Nat.lt_or_ge i rows.length with hi | hi
      · rw [List.getElem?_append_left (htable.length ▸ hi)] at hb
        rw [List.getElem?_append_left hi] at hrow
        exact htable.values i b row hb hrow k hk hnot
      · rw [List.getElem?_append_right (htable.length ▸ hi)] at hb
        rw [List.getElem?_append_right hi] at hrow
        rw [List.mem_singleton.mp (List.mem_of_getElem? hb),
          List.mem_singleton.mp (List.mem_of_getElem? hrow)]

theorem World.Table.reconcile {logs : Option RunLogs} (h : w.Ok) (htable : w.Table fieldnames rows)
    (ha : w.Admits (.reconcile logs)) : (w.step (.reconcile logs)).Ok := by
  obtain ⟨hlegible, hstatus⟩ := ha
  have hread := htable.read
  have hrows : rowsOf w.file = rows.map (Row.reread fieldnames) := by
    rw [rowsOf, hread]
  rw [hrows] at hlegible hstatus
  obtain ⟨b, hb⟩ := List.exists_mem_of_ne_nil _ htable.given
  have hfield (hdue : Due logs (rows.map (Row.reread fieldnames))) : status ∈ fieldnames :=
    htable.same b hb ▸ hstatus hdue b hb
  have hreread : ∀ row ∈ rows.map (Row.reread fieldnames), row.rest = none := by
    intro row hrow
    obtain ⟨i, hi⟩ := List.getElem?_of_mem hrow
    obtain ⟨-, -, hrest, -⟩ := htable.get hi
    exact hrest
  rw [htable.file, Option.getD_some] at hread
  obtain ⟨rows', hsettled, hok⟩ := reconcile_ok hread hlegible fun hdue => ⟨hfield hdue, hreread⟩
  rw [← htable.file] at hok
  rcases hok with ⟨-, -, hok⟩ | ⟨hdue, hok⟩
  · simp only [step, hok]
    exact ⟨h.failed, .inr ⟨fieldnames, rows, htable.file, htable.nonempty, htable.names, htable.given,
      htable.same, htable.fits, htable.clean, htable.length,
      fun i a row ha hrow k hk hnot => htable.values i a row ha hrow k hk fun h => hnot (.inl h)⟩⟩
  · simp only [step, hok, hrows]
    have hlength : rows'.length = rows.length := by simpa using hsettled.length
    refine ⟨h.failed, .inr ⟨fieldnames, rows', rfl, htable.nonempty, htable.names, htable.given,
      htable.same, fun row' hrow' => ⟨?_, ?_⟩, ?_, hlength.trans htable.length, ?_⟩⟩
    · obtain ⟨i, row, hrow, hi, -⟩ := hsettled.exists_row hrow'
      exact (hsettled.rest_eq hrow hi).trans (hreread row (List.mem_of_getElem? hrow))
    · refine hsettled.keys_subset (hfield hdue) (fun row hrow => ?_) row' hrow'
      obtain ⟨row₀, -, rfl⟩ := List.mem_map.mp hrow
      exact keys_dictRow _ _
    · refine hsettled.clean fun row hrow k => ?_
      obtain ⟨row₀, hrow₀, rfl⟩ := List.mem_map.mp hrow
      rw [Row.text_reread (htable.fits row₀ hrow₀).2]
      exact htable.clean row₀ hrow₀ k
    · intro i a row' ha hrow' k hk hnot
      obtain ⟨hnot, hkept⟩ := not_or.mp hnot
      have hlt : i < (rows.map (Row.reread fieldnames)).length := by
        have := (List.getElem?_eq_some_iff.mp hrow').1
        simpa [← hlength] using this
      have hrow := List.getElem?_eq_getElem hlt
      obtain ⟨row₀, hrow₀, -, -, htext⟩ := htable.get hrow
      have hvalue := (htext k).trans (htable.values i a row₀ ha hrow₀ k hk hnot)
      rcases hsettled.get hrow hrow' with ⟨rfl, -⟩ | ⟨markers, hmarked, -, hdue₁, hpromoted⟩
      · exact hvalue
      · rw [← hvalue]
        refine hpromoted.text_eq (fun hk => hkept ?_) fun metrics hmetrics hmem => hkept ?_
        · exact ⟨markers, _, hmarked, hrow, hdue₁, .inl hk⟩
        · exact ⟨markers, _, hmarked, hrow, hdue₁, .inr ⟨metrics, hmetrics, hmem⟩⟩

theorem World.Ok.reconcile {logs : Option RunLogs} (h : w.Ok) (ha : w.Admits (.reconcile logs)) :
    (w.step (.reconcile logs)).Ok := by
  rcases h.file with ⟨hgiven, hfile⟩ | ⟨fieldnames, rows, htable⟩
  · have hok : ∃ file, ResultFile.reconcile w.file logs = .ok (file, 0) ∧ file.getD [] = [] := by
      cases hw : w.file with
      | none => exact ⟨none, rfl, rfl⟩
      | some text =>
        obtain rfl : text = [] := by simpa [hw] using hfile
        exact ⟨some [], rfl, rfl⟩
    obtain ⟨file, hok, hempty⟩ := hok
    rw [step, hok]
    exact ⟨h.failed, .inl ⟨hgiven, hempty⟩⟩
  · exact htable.reconcile h ha

theorem World.Ok.step (h : w.Ok) (op : Op) (ha : w.Admits op) : (w.step op).Ok := by
  cases op with
  | append a => exact h.append a ha
  | reconcile logs => exact h.reconcile ha

/-- Appended rows read back as they were given, along any run of both writers that
starts without a file or with an empty one. -/
theorem appended_rows_intact (file : Option Text) (ops : List Op) (hfile : file.getD [] = [])
    (h : Run.Allowed World.step World.Admits { file } ops) :
    (Run.exec World.step { file } ops).Intact :=
  World.Ok.intact (h.inv ⟨rfl, .inl ⟨rfl, hfile⟩⟩ fun _ op hw hop => hw.step op hop)

/-- A row of a sweep over `rate`, when it has the column, with its logs downloaded. -/
def sweepRow (rate : Option Text) (run : Text) : Append where
  fieldnames := (rate.map fun _ => "rate".toList).toList ++ downloadedNames
  row := ⟨(rate.map fun v => ("rate".toList, some v)).toList ++
    [("run_id".toList, some run), ("tps".toList, some []),
      ("status".toList, some "DOWNLOADED".toList)], none⟩
  fits := by cases rate <;> exact ⟨rfl, List.Subset.refl _⟩

theorem appended_rows_intact_downloaded :
    (Run.exec World.step { file := none } [.append (sweepRow none "r1".toList),
      .reconcile (some (logsOfR1 (.written threeTps))),
      .append (sweepRow none "r2".toList)]).Intact := by
  refine appended_rows_intact none _ rfl ⟨?_, ⟨?_, fun _ => by decide +kernel⟩, ?_, trivial⟩
  · exact ⟨by decide +kernel, by decide +kernel, by decide +kernel⟩
  · rintro i markers row ⟨entry, hmem, -⟩ - -
    obtain ⟨-, rfl⟩ : entry = "r1".toList ∧ markers = ⟨.written threeTps, .absent⟩ := by
      simpa [entriesOf, logsOfR1] using hmem
    exact ⟨by simp, by simp⟩
  · exact ⟨by decide +kernel, by decide +kernel, by decide +kernel⟩

/-- A sweep with one more input column: its row is read under the columns of the
header, and the reconciler raises. -/
theorem new_column_misread :
    ¬(Run.exec World.step { file := none }
      [.append (sweepRow none "r1".toList), .append (sweepRow (some "5".toList) "r2".toList)]).Intact ∧
    (Run.exec World.step { file := none }
      [.append (sweepRow none "r1".toList), .append (sweepRow (some "5".toList) "r2".toList),
        .reconcile (some (logsOfR1 (.written threeTps)))]).failed = true := by
  refine ⟨?_, by decide +kernel⟩
  rintro ⟨-, fieldnames, rows, hread, -, hrow⟩
  have hread' : readTable ((Run.exec World.step { file := none }
      [.append (sweepRow none "r1".toList),
        .append (sweepRow (some "5".toList) "r2".toList)]).file.getD []) =
      .ok (downloadedNames, [downloadedRow,
        dictRow downloadedNames ["5".toList, "r2".toList, [], "DOWNLOADED".toList]]) := by
    decide +kernel
  rw [hread'] at hread
  obtain ⟨-, rfl⟩ := Prod.mk.inj (Except.ok.inj hread)
  have hid := (hrow 1 (sweepRow (some "5".toList) "r2".toList) _ rfl rfl).2.2 runId
    (by decide +kernel) fun h => h
  exact absurd hid (by decide +kernel)

end HotStuffTx.ResultFile
