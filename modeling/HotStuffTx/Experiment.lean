import HotStuffTx.Appended

/-!
# The experiment loop and the parser daemon

`run_from_csv` of `remote.py` and `_process_dir` of `parser_daemon.py` on one result
file and one tree of run directories, in any interleaving. A session may be
interrupted at any point and started again later. What a run does on the hosts is
left to the events, and so is what `LogParser` makes of a directory.
-/

set_option linter.unusedSectionVars false

namespace HotStuffTx.ResultFile

deriving instance DecidableEq for ResultDict, MetricsFile, ErrorFile, Markers, Entry, Append

def downloaded : Text := "DOWNLOADED".toList

/-- `RESULT_COLUMNS`. -/
def resultColumns : List Text :=
  ["tps", "latency_ms_mean", "latency_ms_p50", "latency_ms_p95", "latency_ms_p99", "duration_s",
    "n_committed", "n_records_dumped", "raw_dump_truncated", "n_clients", "n_replicas_booted",
    "tps_steady", "latency_ms_mean_steady", "latency_ms_p50_steady", "latency_ms_p99_steady",
    "latency_ms_p99_steady_worst_client", "n_committed_steady", "steady_span_s",
    "clients_committing", "last_commit_s", "longest_zero_commit_s", "stalled",
    "status"].map String.toList

-- ---------------------------------------------------------------------------
-- The input file
-- ---------------------------------------------------------------------------

/-- A row of the input file: no more cells than the header, in texts that can be read
back. -/
structure InputRow (columns : List Text) where
  row : Row
  fits : row.Fits columns
  clean : ∀ k, Clean (row.text k)

/-- The input file as `csv.DictReader` reads it. -/
structure Input where
  columns : List Text
  clean : ∀ k ∈ columns, Clean k
  rows : List (InputRow columns)

def Input.read (text : Text) : Option Input :=
  match h : readTable text with
  | .error _ => none
  | .ok (columns, rows) =>
    if hrest : ∀ row ∈ rows, row.rest = none then
      some
        { columns
          clean := (readTable_clean h).1
          rows := rows.attach.map fun row =>
            { row := row.1
              fits := ⟨hrest row.1 row.2, ((readTable_clean h).2 row.1 row.2).1 ▸ List.Subset.refl _⟩
              clean := ((readTable_clean h).2 row.1 row.2).2 } }
    else none

/-- `dict.setdefault`. -/
def Row.setDefault (row : Row) (k v : Text) : Row := if row.keys.contains k then row else row.set k v

/-- The dictionary that `_write_row` writes. -/
def Row.out (row : Row) (st : Text) : Row :=
  ((resultColumns.filter (· ≠ status)).foldl (fun out col => out.setDefault col []) row).set status st

/-- `csv_fieldnames`. -/
def Input.fieldnames (input : Input) : List Text :=
  input.columns ++ resultColumns.filter (!input.columns.contains ·)

/-- `row.get('run_id') or str(idx + 1)`. -/
def runIdOf (row : Row) (idx : Nat) : Text :=
  if row.text runId = [] then (toString (idx + 1)).toList else row.text runId

/-- `completed_ids`. -/
def completedIds (rows : List Row) : List Text :=
  (rows.filter fun row => row.text runId ≠ [] ∧
    (row.text status = ok ∨ row.text status = downloaded)).map (·.text runId)

section Out

variable {columns : List Text} {row : Row} {k st : Text}

theorem Row.setDefault_spec (row : Row) (col : Text) : (row.setDefault col []).rest = row.rest ∧
    (row.setDefault col []).keys ⊆ row.keys ++ [col] ∧ ∀ k, (row.setDefault col []).text k = row.text k := by
  unfold setDefault
  split
  · exact ⟨rfl, List.subset_append_left _ _, fun _ => rfl⟩
  · rename_i hcol
    refine ⟨rfl, by simp, fun k => ?_⟩
    rw [text_set]
    split
    · rename_i hk
      rw [hk, text_of_not_mem fun h => hcol (List.contains_iff_mem.mpr h)]
    · rfl

theorem Row.foldl_setDefault (cols : List Text) (row out : Row)
    (hout : cols.foldl (fun out col => out.setDefault col []) row = out) :
    out.rest = row.rest ∧ out.keys ⊆ row.keys ++ cols ∧ ∀ k, out.text k = row.text k := by
  subst hout
  induction cols generalizing row with
  | nil => exact ⟨rfl, by simp, fun _ => rfl⟩
  | cons col cols ih =>
    obtain ⟨hrest, hkeys, htext⟩ := row.setDefault_spec col
    obtain ⟨hrest', hkeys', htext'⟩ := ih (row.setDefault col [])
    refine ⟨hrest'.trans hrest, fun k hk => ?_, fun k => (htext' k).trans (htext k)⟩
    rcases List.mem_append.mp (hkeys' hk) with hk | hk
    · rcases List.mem_append.mp (hkeys hk) with hk | hk
      · exact List.mem_append_left _ hk
      · exact List.mem_append_right _ (List.mem_cons.mpr (.inl (List.mem_singleton.mp hk)))
    · exact List.mem_append_right _ (List.mem_cons_of_mem _ hk)

/-- What is written is the input row with a status. -/
@[simp] theorem Row.text_out (row : Row) (st k : Text) :
    (row.out st).text k = if k = status then st else row.text k := by
  rw [out, text_set, (Row.foldl_setDefault _ row _ rfl).2.2]

theorem Row.rest_out (row : Row) (st : Text) : (row.out st).rest = row.rest := by
  rw [out, rest_set, (Row.foldl_setDefault _ row _ rfl).1]

theorem Row.keys_out (h : row.keys ⊆ columns) :
    (row.out st).keys ⊆ columns ++ resultColumns.filter (!columns.contains ·) := by
  intro k hk
  have hcol {k : Text} (hk : k ∈ resultColumns) :
      k ∈ columns ++ resultColumns.filter (!columns.contains ·) := by
    by_cases hc : k ∈ columns
    · exact List.mem_append_left _ hc
    · exact List.mem_append_right _ (List.mem_filter.mpr ⟨hk, by simpa using hc⟩)
  rw [out, keys_set] at hk
  rcases List.mem_append.mp hk with hk | hk
  · rcases List.mem_append.mp ((Row.foldl_setDefault _ row _ rfl).2.1 hk) with hk | hk
    · exact List.mem_append_left _ (h hk)
    · exact hcol (List.mem_filter.mp hk).1
  · rw [List.mem_singleton.mp hk]
    exact hcol (by decide +kernel)

end Out

/-- The call of `append_row` for a row of the input. -/
def Input.append (input : Input) (row : InputRow input.columns) (st : Text) : Append where
  fieldnames := input.fieldnames
  row := row.row.out st
  fits := ⟨(row.row.rest_out st).trans row.fits.1, Row.keys_out row.fits.2⟩

-- ---------------------------------------------------------------------------
-- The run directories
-- ---------------------------------------------------------------------------

/-- An exception that `_process_dir` catches: the name of its class, which is no
blank, its text and the traceback. -/
structure Fault where
  type : Text
  named : type ≠ [] ∧ ∀ c ∈ type, isSpace c = false
  e : Text
  tb : Text
  deriving DecidableEq

/-- What is written to `PARSE_ERROR`. -/
def Fault.content (f : Fault) : Text :=
  f.type ++ [':', ' '] ++ f.e ++ ['\n', '\n'] ++ f.tb

/-- What the daemon writes into a directory. -/
inductive Parsed
  | metrics (m : ResultDict)
  | error (f : Fault)
  deriving DecidableEq

/-- The marker files of a run directory. -/
structure Dir where
  ready : Bool := false
  metrics : Option ResultDict := none
  error : Option Fault := none

inductive MarkerFile
  | ready
  | metrics
  | error
  deriving DecidableEq

def Dir.remove (d : Dir) : MarkerFile → Dir
  | .ready => { d with ready := false }
  | .metrics => { d with metrics := none }
  | .error => { d with error := none }

def Dir.put (d : Dir) : Parsed → Dir
  | .metrics m => { d with metrics := some m }
  | .error f => { d with error := some f }

-- ---------------------------------------------------------------------------
-- The two processes
-- ---------------------------------------------------------------------------

/-- Where `run_from_csv` is. -/
inductive Phase
  /-- before `completed_ids` is read -/
  | starting
  /-- at the head of the loop -/
  | row
  /-- from `_run_single` to the archiving -/
  | running
  | archived
  | ready
  /-- in the handler of an exception of the run -/
  | failed
  /-- past the loop, after `break` -/
  | halted
  deriving DecidableEq

/-- One call of `run_from_csv`. `base` is the number of rows appended before it, `seen`
the number when it read the result file. -/
structure Session where
  input : Input
  base : Nat
  completed : List Text := []
  seen : Nat := 0
  idx : Nat := 0
  phase : Phase := .starting

namespace Session

def current (ses : Session) : Option (InputRow ses.input.columns) := ses.input.rows[ses.idx]?

/-- The `run_id` of the row at hand. -/
def id (ses : Session) : Text := (ses.current.map fun row => runIdOf row.row ses.idx).getD []

/-- `run_id in completed_ids`. -/
def done (ses : Session) : Bool := ses.completed.contains ses.id

def next (ses : Session) : Session := { ses with idx := ses.idx + 1, phase := .row }

def goto (ses : Session) (phase : Phase) : Session := { ses with phase }

end Session

/-- Where `_process_dir` is, and in which directory. -/
inductive Daemon
  | idle
  | parsing (entry : Text)
  /-- `metrics.json` is written, `READY` not removed yet -/
  | measured (entry : Text)
  | pruning (entry : Text)
  /-- in the handler of an exception, past the write -/
  | faulty (entry : Text)
  deriving DecidableEq

/-- Why a row is not run. -/
inductive Rejection
  | paramError (e : Text)
  | notEnoughNodes
  | configError (e : Text)
  deriving DecidableEq

def Rejection.status : Rejection → Text
  | .paramError e => "PARAM_ERROR: ".toList ++ e
  | .notEnoughNodes => "NOT_ENOUGH_NODES".toList
  | .configError e => "CONFIG_ERROR: ".toList ++ e

def diskFull (msg : Text) : Text := "DISK_FULL: ".toList ++ msg

def runError (e : Text) : Text := "RUN_ERROR: ".toList ++ e

/-- A run that was started, and how many rows its session had seen. -/
structure Launch where
  id : Text
  seen : Nat
  deriving DecidableEq

/-- `wrote` is what the daemon has written where, `launched` the runs started. -/
structure Experiment where
  world : World
  dirs : Text → Option Dir := fun _ => none
  session : Option Session := none
  daemon : Daemon := .idle
  wrote : List (Text × Parsed) := []
  launched : List Launch := []

/-- A step of the session, of the daemon, or of a reconciler. The reconciles at the
start and at the end of a session are `reconcile` events like those of the daemon;
what they raise is caught. -/
inductive Act
  | start (input : Text)
  | resume
  | skip
  | reject (why : Rejection)
  | diskFull (msg : Text)
  | launch
  /-- `rmtree` at work -/
  | unlink (file : MarkerFile)
  | rmtree
  | copytree
  /-- there are no logs to archive -/
  | noLogs
  | markReady
  | record
  | raise
  | recordError (e : Text)
  | finish
  | interrupt
  | scan (entry : Text)
  | parse (m : ResultDict)
  | fault (f : Fault)
  /-- `PARSE_ERROR` cannot be written -/
  | lost
  | unready
  | done
  | stop
  | reconcile (logs : Option RunLogs)

namespace Experiment

/-- `_write_row` with the row at hand. -/
def write (s : Experiment) (ses : Session) (st : Text) : World :=
  match ses.current with
  | none => s.world
  | some row => s.world.step (.append (ses.input.append row st))

/-- A file is put into a directory that is there. -/
def put (s : Experiment) (entry : Text) (p : Parsed) : Experiment :=
  match s.dirs entry with
  | none => s
  | some d => { s with
      dirs := Function.update s.dirs entry (some (d.put p))
      wrote := s.wrote ++ [(entry, p)] }

def remove (s : Experiment) (entry : Text) (file : MarkerFile) : Experiment :=
  { s with dirs := Function.update s.dirs entry ((s.dirs entry).map (·.remove file)) }

/-- A step of the session. -/
def act (s : Experiment) (ses : Session) : Act → Experiment
  | .resume => { s with session := some { ses with
      completed := completedIds (rowsOf s.world.file)
      seen := s.world.given.length
      phase := .row } }
  | .skip => { s with session := some ses.next }
  | .reject why => { s with world := s.write ses why.status, session := some ses.next }
  | .diskFull msg => { s with
      world := s.write ses (ResultFile.diskFull msg)
      session := some (ses.next.goto .halted) }
  | .launch => { s with
      session := some (ses.goto .running)
      launched := s.launched ++ [⟨ses.id, ses.seen⟩] }
  | .unlink file => s.remove ses.id file
  | .rmtree => { s with dirs := Function.update s.dirs ses.id none }
  | .copytree => { s with
      dirs := Function.update s.dirs ses.id (some {})
      session := some (if ses.phase = .running then ses.goto .archived else ses) }
  | .noLogs => { s with session := some (ses.goto .archived) }
  | .markReady => { s with
      dirs := Function.update s.dirs ses.id (some { (s.dirs ses.id).getD {} with ready := true })
      session := some (ses.goto .ready) }
  | .record => { s with world := s.write ses downloaded, session := some ses.next }
  | .raise => { s with session := some (ses.goto .failed) }
  | .recordError e => { s with world := s.write ses (runError e), session := some ses.next }
  | .finish | .interrupt => { s with session := none }
  | _ => s

def advance (s : Experiment) (e : Act) : Experiment :=
  match s.session with
  | none => s
  | some ses => s.act ses e

def step (s : Experiment) : Act → Experiment
  | .start text =>
    match Input.read text with
    | none => s
    | some input => { s with session := some { input, base := s.world.given.length } }
  | .scan entry =>
    match s.dirs entry with
    | none => s
    | some d =>
      if d.ready = false then s
      else if d.metrics.isSome ∨ d.error.isSome then s.remove entry .ready
      else { s with daemon := .parsing entry }
  | .parse m =>
    match s.daemon with
    | .parsing entry => { s.put entry (.metrics m) with daemon := .measured entry }
    | _ => s
  | .fault f =>
    match s.daemon with
    | .parsing entry | .measured entry | .pruning entry =>
      { s.put entry (.error f) with daemon := .faulty entry }
    | _ => s
  | .lost =>
    match s.daemon with
    | .parsing entry | .measured entry | .pruning entry => { s with daemon := .faulty entry }
    | _ => s
  | .unready =>
    match s.daemon with
    | .measured entry => { s.remove entry .ready with daemon := .pruning entry }
    | .faulty entry => { s.remove entry .ready with daemon := .idle }
    | _ => s
  | .done | .stop => { s with daemon := .idle }
  | .reconcile logs => { s with world := s.world.step (.reconcile logs) }
  | e => s.advance e

/-- The results that the daemon has written into the directory. -/
def metricsOf (s : Experiment) (entry : Text) : List ResultDict :=
  s.wrote.filterMap fun w =>
    match w.2 with
    | .metrics m => if w.1 = entry then some m else none
    | .error _ => none

def faultsOf (s : Experiment) (entry : Text) : List Fault :=
  s.wrote.filterMap fun w =>
    match w.2 with
    | .metrics _ => none
    | .error f => if w.1 = entry then some f else none

/-- What a reconciler finds in a directory, whenever it looks, is what the daemon has
written there. -/
def Finds (s : Experiment) : Text × Entry → Prop
  | (_, .other) => True
  | (entry, .dir markers) =>
    (match markers.metrics with
      | .absent | .unreadable => True
      | .written m => m ∈ s.metricsOf entry
      | .undecodable => False) ∧
    match markers.error with
      | .absent => True
      | .unreadable => s.faultsOf entry ≠ []
      | .written content => ∃ f ∈ s.faultsOf entry, f.content = content
      | .undecodable => False

/-- Where in its code the session takes the step. -/
def Follows (s : Experiment) (ses : Session) : Act → Prop
  | .resume => ses.phase = .starting
  | .skip => ses.phase = .row ∧ ses.current.isSome ∧ ses.done = true
  | .reject why => ses.phase = .row ∧ ses.current.isSome ∧ ses.done = false ∧ Clean why.status
  | .diskFull msg =>
    ses.phase = .row ∧ ses.current.isSome ∧ ses.done = false ∧ Clean (ResultFile.diskFull msg)
  | .launch => ses.phase = .row ∧ ses.current.isSome ∧ ses.done = false
  | .unlink _ | .rmtree => ses.phase = .running ∨ ses.phase = .failed
  | .copytree => (ses.phase = .running ∨ ses.phase = .failed) ∧ (s.dirs ses.id).isNone
  | .noLogs => ses.phase = .running
  | .markReady => ses.phase = .archived
  | .record => ses.phase = .ready
  | .raise => ses.phase = .running ∨ ses.phase = .archived ∨ ses.phase = .ready
  | .recordError e => ses.phase = .failed ∧ Clean (runError e)
  | .finish => ses.phase = .row ∧ ses.current.isNone ∨ ses.phase = .halted
  | _ => True

def Permits (s : Experiment) (e : Act) : Prop :=
  match s.session with
  | none => False
  | some ses => s.Follows ses e

/-- One session at a time, all with the same columns. -/
def Admits (s : Experiment) : Act → Prop
  | .start text =>
    match Input.read text with
    | none => False
    | some input => s.session.isNone ∧ ∀ b ∈ s.world.given, b.fieldnames = input.fieldnames
  | .scan _ => s.daemon = .idle
  | .parse _ =>
    match s.daemon with
    | .parsing entry => (s.dirs entry).isSome
    | _ => False
  | .fault _ =>
    match s.daemon with
    | .parsing entry | .measured entry | .pruning entry => (s.dirs entry).isSome
    | _ => False
  | .lost =>
    match s.daemon with
    | .parsing _ | .measured _ | .pruning _ => True
    | _ => False
  | .unready =>
    match s.daemon with
    | .measured _ | .faulty _ => True
    | _ => False
  | .done =>
    match s.daemon with
    | .pruning _ | .faulty _ => True
    | _ => False
  | .stop => True
  | .reconcile logs => ∀ e ∈ entriesOf logs, s.Finds e
  | e => s.Permits e

instance (s : Experiment) (e : Text × Entry) : Decidable (s.Finds e) := by
  unfold Finds
  split
  · infer_instance
  · rename_i entry markers
    have hm : Decidable (match markers.metrics with
        | .absent | .unreadable => True
        | .written m => m ∈ s.metricsOf entry
        | .undecodable => False) := by
      split <;> infer_instance
    have he : Decidable (match markers.error with
        | .absent => True
        | .unreadable => s.faultsOf entry ≠ []
        | .written content => ∃ f ∈ s.faultsOf entry, f.content = content
        | .undecodable => False) := by
      split <;> infer_instance
    exact @instDecidableAnd _ _ hm he

instance (s : Experiment) (ses : Session) (e : Act) : Decidable (s.Follows ses e) := by
  unfold Follows
  split <;> infer_instance

instance (s : Experiment) (e : Act) : Decidable (s.Permits e) := by
  unfold Permits
  split <;> infer_instance

instance (s : Experiment) (e : Act) : Decidable (s.Admits e) := by
  unfold Admits
  split
  all_goals first
    | infer_instance
    | (split <;> infer_instance)

end Experiment

end HotStuffTx.ResultFile
