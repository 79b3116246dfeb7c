import HotStuffTx.Lib.Csv
import HotStuffTx.Records

/-!
# The result file

`append_row` of `csv_writer.py` and `reconcile_csv` of `reconciler.py`. Both hold
one lock from the first read to the last write, so a call is one step. The file
is read with universal newlines and written as it is. A JSON file is what
`json.load` makes of it.
-/

set_option linter.unusedSectionVars false

namespace HotStuffTx.ResultFile

open Csv (excel)

/-- What a call raises. -/
inductive Failure
  | csvError
  | valueError
  | unicodeDecodeError
  | indexError
  deriving DecidableEq

/-- `csv.field_size_limit()`. -/
def fieldLimit : Nat := 131072

def runId : Text := "run_id".toList
def status : Text := "status".toList
def ok : Text := "OK".toList
def parseError : Text := "PARSE_ERROR".toList

-- ---------------------------------------------------------------------------
-- Rows
-- ---------------------------------------------------------------------------

/-- A row as a dictionary: of the bindings of a key the last one counts. What
`csv.DictReader` finds beyond the header is `rest`, under the key `None`. -/
structure Row where
  cells : List (Text × Option Text)
  rest : Option (List Text) := none
  deriving DecidableEq

namespace Row

def get (row : Row) (k : Text) : Option Text := (row.cells.reverse.lookup k).join

/-- `row.get(k, '') or ''`, and what is written for the key. -/
def text (row : Row) (k : Text) : Text := (row.get k).getD []

def set (row : Row) (k v : Text) : Row := { row with cells := row.cells ++ [(k, some v)] }

end Row

/-- The dictionary of a record. A short record leaves the last names at `None`. -/
def dictRow (fieldnames record : List Text) : Row where
  cells := fieldnames.zip (record.map some) ++
    (fieldnames.drop record.length).map fun k => (k, none)
  rest := if fieldnames.length < record.length then some (record.drop fieldnames.length) else none

/-- `csv.DictReader` over the whole file: the first record names the fields, empty
records are skipped. -/
def readTable (text : Text) : Except Failure (List Text × List Row) :=
  match excel.read fieldLimit (universalNewlines text) with
  | none => .error .csvError
  | some [] => .ok ([], [])
  | some (fieldnames :: records) =>
    .ok (fieldnames, (records.filter (· ≠ [])).map (dictRow fieldnames))

/-- `csv.DictWriter.writerow`: a key that is no field name is an error. -/
def writeRow (fieldnames : List Text) (row : Row) : Except Failure Text :=
  if row.rest = none ∧ ∀ cell ∈ row.cells, cell.1 ∈ fieldnames then
    .ok (excel.writeRecord (fieldnames.map row.text))
  else .error .valueError

/-- The header is written to a file that is new or empty, and stays there when the
row cannot be written. -/
def appendRow (file : Option Text) (fieldnames : List Text) (row : Row) :
    Text × Except Failure Unit :=
  let text := file.getD []
  let text := if text = [] then excel.writeRecord fieldnames else text
  match writeRow fieldnames row with
  | .ok line => (text ++ line, .ok ())
  | .error e => (text, .error e)

-- ---------------------------------------------------------------------------
-- The run directories
-- ---------------------------------------------------------------------------

/-- The keys of `LogParser.result_dict`. -/
def resultKeys : List Text :=
  ["tps", "latency_ms_mean", "latency_ms_p50", "latency_ms_p95", "latency_ms_p99", "duration_s",
    "n_committed", "n_records_dumped", "raw_dump_truncated", "n_clients", "n_replicas_booted",
    "tps_steady", "latency_ms_mean_steady", "n_committed_steady", "steady_span_s",
    "clients_committing", "last_commit_s", "longest_zero_commit_s", "stalled",
    "latency_ms_p50_steady", "latency_ms_p99_steady",
    "latency_ms_p99_steady_worst_client"].map String.toList

/-- A dictionary as `LogParser.result_dict` writes it, every number and truth value
as `str` gives it. -/
structure ResultDict where
  entries : List (Text × Text)
  keys : ∀ e ∈ entries, e.1 ∈ resultKeys
  distinct : (entries.map Prod.fst).Nodup
  plain : ∀ e ∈ entries, '\r' ∉ e.2 ∧ e.2.length ≤ fieldLimit

/-- `unreadable` files cannot be opened or are no JSON, `undecodable` ones are bytes
that are no text. -/
inductive MetricsFile
  | absent
  | unreadable
  | undecodable
  | written (metrics : ResultDict)

inductive ErrorFile
  | absent
  | unreadable
  | undecodable
  | written (content : Text)

/-- The two files of a run directory that the reconciler looks at. -/
structure Markers where
  metrics : MetricsFile
  error : ErrorFile

inductive Entry
  | other
  | dir (markers : Markers)

/-- The entries of the directory, as `sorted` lists them. -/
structure RunLogs where
  entries : List (Text × Entry)
  sorted : (entries.map Prod.fst).Pairwise (· < ·)

-- ---------------------------------------------------------------------------
-- Reconciling
-- ---------------------------------------------------------------------------

def strip (content : Text) : Text := rstrip (content.dropWhile isSpace)

/-- The line ends of `str.splitlines`. -/
def isLineBreak (c : Char) : Bool :=
  let k := c.toNat
  (0x0a ≤ k && k ≤ 0x0d) || (0x1c ≤ k && k ≤ 0x1e) || k = 0x85 || k = 0x2028 || k = 0x2029

/-- `ef.read().strip().splitlines()[0][:200]`; there is no first line in a blank file. -/
def errText (content : Text) : Option Text :=
  let content := strip (universalNewlines content)
  if content = [] then none else some ((content.takeWhile (!isLineBreak ·)).take 200)

/-- The index of the last row with this `run_id`. -/
def rowsById (id : Text) : List Row → Option Nat
  | [] => none
  | row :: rows =>
    match rowsById id rows with
    | some i => some (i + 1)
    | none => if row.text runId = id ∧ id ≠ [] then some 0 else none

/-- `for k, v in metrics.items(): if k in fieldnames: row[k] = v`. -/
def fold (fieldnames : List Text) (row : Row) (entries : List (Text × Text)) : Row :=
  entries.foldl (fun row e => if e.1 ∈ fieldnames then row.set e.1 e.2 else row) row

def failed (row : Row) (errText : Text) : Row :=
  row.set status (parseError ++ [':', ' '] ++ errText)

/-- What is done with the row of a directory; `none` leaves it as it is. -/
def promote (fieldnames : List Text) (markers : Markers) (row : Row) : Except Failure (Option Row) :=
  match markers.metrics, decide (row.text status = ok) with
  | .written metrics, false => .ok (some ((fold fieldnames row metrics.entries).set status ok))
  | .unreadable, false => .ok none
  | .undecodable, false => .error .unicodeDecodeError
  | _, _ =>
    match markers.error with
    | .absent => .ok none
    | error =>
      if row.text status = ok ∨ parseError <+: row.text status then .ok none
      else
        match error with
        | .absent | .unreadable => .ok (some (failed row "unknown".toList))
        | .undecodable => .error .unicodeDecodeError
        | .written content =>
          match errText content with
          | none => .error .indexError
          | some errText => .ok (some (failed row errText))

/-- One entry of the loop, with the rows and the number of upgraded ones. -/
def visit (fieldnames : List Text) (byId : Text → Option Nat) (s : List Row × Nat) :
    Text × Entry → Except Failure (List Row × Nat)
  | (_, .other) => .ok s
  | (entry, .dir markers) =>
    match byId entry with
    | none => .ok s
    | some i =>
      match s.1[i]? with
      | none => .ok s
      | some row =>
        match promote fieldnames markers row with
        | .error e => .error e
        | .ok none => .ok s
        | .ok (some row') => .ok (s.1.set i row', s.2 + 1)

def rewrite (fieldnames : List Text) (rows : List Row) : Except Failure Text := do
  let lines ← rows.mapM (writeRow fieldnames)
  return excel.writeRecord fieldnames ++ lines.flatten

/-- The file and the number of upgraded rows. When the call raises, the file is
as it was. `none` is a file or a directory that does not exist. -/
def reconcile (file : Option Text) (logs : Option RunLogs) :
    Except Failure (Option Text × Nat) :=
  match file with
  | none => .ok (none, 0)
  | some text => do
    let (fieldnames, rows) ← readTable text
    if rows = [] then return (text, 0)
    match logs with
    | none => return (text, 0)
    | some logs =>
      let (rows', upgraded) ← logs.entries.foldlM (visit fieldnames (rowsById · rows)) (rows, 0)
      if upgraded = 0 then return (text, 0)
      return (← rewrite fieldnames rows', upgraded)

-- ---------------------------------------------------------------------------
-- Rows by their text
-- ---------------------------------------------------------------------------

namespace Row

@[simp] theorem text_set (row : Row) (k v k' : Text) :
    (row.set k v).text k' = if k' = k then v else row.text k' := by
  simp only [text, get, set, List.reverse_append, List.reverse_singleton, List.singleton_append]
  by_cases h : k' = k
  · simp [h]
  · simp [List.lookup_cons, beq_false_of_ne h, h]

@[simp] theorem rest_set (row : Row) (k v : Text) : (row.set k v).rest = row.rest := rfl

/-- The keys of the dictionary but `None`. -/
def keys (row : Row) : List Text := row.cells.map Prod.fst

@[simp] theorem keys_set (row : Row) (k v : Text) : (row.set k v).keys = row.keys ++ [k] := by
  simp [keys, set]

theorem text_of_not_mem {row : Row} {k : Text} (h : k ∉ row.keys) : row.text k = [] := by
  have hlookup : row.cells.reverse.lookup k = none := by
    refine List.lookup_eq_none_iff.mpr fun e he => bne_iff_ne.mpr fun hk => h ?_
    exact List.mem_map.mpr ⟨e, List.mem_reverse.mp he, hk.symm⟩
  rw [text, get, hlookup]
  rfl

/-- A text of the row stands in one of its cells. -/
theorem text_eq_nil_or_mem (row : Row) (k : Text) :
    row.text k = [] ∨ (k, some (row.text k)) ∈ row.cells := by
  rw [text, get]
  cases hlookup : row.cells.reverse.lookup k with
  | none => exact .inl rfl
  | some value =>
    cases value with
    | none => exact .inl rfl
    | some value =>
      obtain ⟨before, after, hcells, -⟩ := List.lookup_eq_some_iff.mp hlookup
      refine .inr (List.mem_reverse.mp ?_)
      simp [hcells]

end Row

@[simp] theorem keys_dictRow (fieldnames record : List Text) :
    (dictRow fieldnames record).keys = fieldnames := by
  simp only [Row.keys, dictRow, List.map_append, List.map_map]
  rw [show (Prod.fst ∘ fun k => ((k, none) : Text × Option Text)) = id from rfl, List.map_id]
  induction fieldnames generalizing record with
  | nil => simp
  | cons k fieldnames ih => cases record <;> simp [ih]

/-- A record written from a row is that row again. -/
theorem text_dictRow_map {fieldnames : List Text} (f : Text → Text) {k : Text}
    (hk : k ∈ fieldnames) : (dictRow fieldnames (fieldnames.map f)).text k = f k := by
  have hcells : (dictRow fieldnames (fieldnames.map f)).cells =
      fieldnames.map fun k => (k, some (f k)) := by
    rw [dictRow, List.length_map, List.drop_length, List.map_nil, List.append_nil, List.map_map,
      List.zip_map_right, ← List.map_id fieldnames, List.zip_map', List.map_map, List.map_map]
    simp
  rw [Row.text, Row.get, hcells, ← List.map_reverse]
  have hlookup (ks : List Text) (hk : k ∈ ks) :
      (ks.map fun k => (k, some (f k))).lookup k = some (some (f k)) := by
    induction ks with
    | nil => exact absurd hk List.not_mem_nil
    | cons k' ks ih =>
      by_cases h : k = k'
      · simp [h]
      · simpa [List.lookup_cons, beq_false_of_ne h] using
          ih ((List.mem_cons.mp hk).resolve_left h)
  rw [hlookup _ (List.mem_reverse.mpr hk)]
  rfl

theorem rest_dictRow_map (fieldnames : List Text) (f : Text → Text) :
    (dictRow fieldnames (fieldnames.map f)).rest = none := by
  simp [dictRow]

-- ---------------------------------------------------------------------------
-- The file
-- ---------------------------------------------------------------------------

theorem universalNewlines_eq (text : Text) : universalNewlines text = excel.translate text := by
  have hcr : '\r' ≠ excel.nl := by decide
  induction text using universalNewlines.induct with
  | case1 cs ih =>
    rw [universalNewlines, ih]
    rfl
  | case2 cs hcs ih =>
    rw [universalNewlines, ih]
    · have hhead : cs.head? ≠ some excel.nl := by
        cases cs with
        | nil => simp
        | cons c cs => exact fun h => hcs cs (by rw [Option.some.inj h]; rfl)
      have h := Csv.Dialect.translateFrom_append (d := excel) (b := true) hhead []
      simp only [List.nil_append, Csv.Dialect.translateFrom] at h
      rw [← h]
      rfl
    · exact hcs
  | case3 c cs h₁ h₂ ih =>
    rw [universalNewlines, ih]
    · have hc : c ≠ excel.cr := h₂
      simp [Csv.Dialect.translate, Csv.Dialect.translateFrom, hc]
    · exact h₁
    · exact h₂
  | case4 => rfl

/-- A text that the file gives back as it is. -/
def Clean (t : Text) : Prop := '\r' ∉ t ∧ t.length ≤ fieldLimit

instance (t : Text) : Decidable (Clean t) := inferInstanceAs (Decidable (_ ∧ _))

theorem Clean.nil : Clean [] := by simp [Clean]

theorem Clean.translate {t : Text} (h : Clean t) : excel.translate t = t :=
  Csv.Dialect.translate_of_not_mem h.1

theorem readTable_write {fieldnames : List Text} {records : List (List Text)}
    (hnames : ∀ k ∈ fieldnames, Clean k) (hclean : ∀ record ∈ records, ∀ t ∈ record, Clean t)
    (hne : ∀ record ∈ records, record ≠ []) :
    readTable (excel.write (fieldnames :: records)) =
      .ok (fieldnames, records.map (dictRow fieldnames)) := by
  have hall : ∀ record ∈ fieldnames :: records, ∀ t ∈ record, Clean t := by
    simpa using ⟨hnames, hclean⟩
  have hsame : (fieldnames :: records).map (List.map excel.translate) = fieldnames :: records := by
    refine (List.map_congr_left fun record hrecord => ?_).trans (List.map_id _)
    exact (List.map_congr_left fun t ht => (hall record hrecord t ht).translate).trans (List.map_id _)
  rw [readTable, universalNewlines_eq, Csv.Dialect.read_write, hsame]
  · simp only [Except.ok.injEq, Prod.mk.injEq, true_and]
    rw [List.filter_eq_self.mpr fun record hrecord => decide_eq_true (hne record hrecord)]
  · intro record hrecord t ht
    rw [(hall record hrecord t ht).translate]
    exact (hall record hrecord t ht).2

theorem text_dictRow {fieldnames record : List Text} {p : Text → Prop} (hnil : p [])
    (hrecord : ∀ t ∈ record, p t) (k : Text) : p ((dictRow fieldnames record).text k) := by
  rcases (dictRow fieldnames record).text_eq_nil_or_mem k with h | h
  · rwa [h]
  · rcases List.mem_append.mp h with h | h
    · obtain ⟨t, ht, heq⟩ := List.mem_map.mp (List.of_mem_zip h).2
      exact Option.some.inj heq ▸ hrecord t ht
    · obtain ⟨k', -, heq⟩ := List.mem_map.mp h
      simp at heq

/-- Whatever the file holds, its table can be written and read again. -/
theorem readTable_clean {text : Text} {fieldnames : List Text} {rows : List Row}
    (h : readTable text = .ok (fieldnames, rows)) :
    (∀ k ∈ fieldnames, Clean k) ∧
      ∀ row ∈ rows, row.keys = fieldnames ∧ ∀ k, Clean (row.text k) := by
  rw [readTable, universalNewlines_eq] at h
  cases hread : excel.read fieldLimit (excel.translate text) with
  | none => simp [hread] at h
  | some records =>
    have hclean {record : List Text} (hrecord : record ∈ records) {t : Text} (ht : t ∈ record) :
        Clean t := by
      obtain ⟨hlength, hsub⟩ := Csv.Dialect.read_fields hread hrecord ht
      exact ⟨fun hcr => Csv.Dialect.not_mem_translate (hsub hcr), hlength⟩
    rw [hread] at h
    cases records with
    | nil =>
      obtain ⟨rfl, rfl⟩ := Prod.mk.inj (Except.ok.inj h)
      simp
    | cons header records =>
      obtain ⟨rfl, rfl⟩ := Prod.mk.inj (Except.ok.inj h)
      refine ⟨fun k hk => hclean List.mem_cons_self hk, fun row hrow => ?_⟩
      obtain ⟨record, hrecord, rfl⟩ := List.mem_map.mp hrow
      refine ⟨keys_dictRow _ _, text_dictRow .nil fun t ht => hclean ?_ ht⟩
      exact List.mem_cons_of_mem _ (List.mem_filter.mp hrecord).1

/-- What `writeRow` asks of a row. -/
def Row.Fits (fieldnames : List Text) (row : Row) : Prop :=
  row.rest = none ∧ row.keys ⊆ fieldnames

theorem writeRow_eq {fieldnames : List Text} {row : Row} (h : row.Fits fieldnames) :
    writeRow fieldnames row = .ok (excel.writeRecord (fieldnames.map row.text)) :=
  if_pos ⟨h.1, fun _ hcell => h.2 (List.mem_map_of_mem hcell)⟩

theorem rest_of_writeRow {fieldnames : List Text} {row : Row} {line : Text}
    (h : writeRow fieldnames row = .ok line) : row.rest = none := by
  rw [writeRow] at h
  split_ifs at h with hfits
  exact hfits.1

theorem rewrite_eq {fieldnames : List Text} {rows : List Row}
    (h : ∀ row ∈ rows, row.Fits fieldnames) :
    rewrite fieldnames rows =
      .ok (excel.write (fieldnames :: rows.map fun row => fieldnames.map row.text)) := by
  have hlines : rows.mapM (writeRow fieldnames) =
      .ok (rows.map fun row => excel.writeRecord (fieldnames.map row.text)) := by
    induction rows with
    | nil => rfl
    | cons row rows ih =>
      rw [List.mapM_cons, writeRow_eq (h row List.mem_cons_self),
        ih fun row hrow => h row (List.mem_cons_of_mem _ hrow)]
      rfl
  rw [rewrite, hlines]
  simp only [Csv.Dialect.write, List.flatMap_cons, List.flatMap_map]
  rfl

theorem rest_of_rewrite {fieldnames : List Text} {rows : List Row} {text : Text}
    (h : rewrite fieldnames rows = .ok text) : ∀ row ∈ rows, row.rest = none := by
  rw [rewrite] at h
  cases hlines : rows.mapM (writeRow fieldnames) with
  | error e => simp [hlines, bind, Except.bind] at h
  | ok lines =>
    clear h
    induction rows generalizing lines with
    | nil => exact fun row hrow => absurd hrow List.not_mem_nil
    | cons row rows ih =>
      rw [List.mapM_cons] at hlines
      cases hline : writeRow fieldnames row with
      | error e => simp [hline, bind, Except.bind] at hlines
      | ok line =>
        cases hrest : rows.mapM (writeRow fieldnames) with
        | error e => simp [hline, hrest, bind, Except.bind] at hlines
        | ok lines' =>
          rintro r hr
          rcases List.mem_cons.mp hr with rfl | hr
          · exact rest_of_writeRow hline
          · exact ih lines' hrest r hr

end HotStuffTx.ResultFile
