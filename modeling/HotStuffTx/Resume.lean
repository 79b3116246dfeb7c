import HotStuffTx.Experiment

/-!
# Resuming an experiment

What the result file says after any interleaving of interrupted and resumed sessions,
the parser daemon and reconcilers. Every row is the one appended, with nothing added
but one result of the daemon for its run; a session runs no row that is recorded, and
runs a recorded one again only if the daemon has failed on it.
-/

set_option linter.unusedSectionVars false

namespace HotStuffTx.ResultFile

open Csv (excel)

-- ---------------------------------------------------------------------------
-- The rows of the file
-- ---------------------------------------------------------------------------

/-- The texts of the rows as they are read. -/
def World.texts (w : World) : List (Text → Text) := (rowsOf w.file).map Row.text

section Texts

variable {w : World} {fieldnames : List Text} {rows rows' : List Row} {a : Append}
  {logs : Option RunLogs}

theorem map_text_reread (h : ∀ row ∈ rows, row.keys ⊆ fieldnames) :
    (rows.map (Row.reread fieldnames)).map Row.text = rows.map Row.text := by
  rw [List.map_map]
  exact List.map_congr_left fun row hrow => funext (Row.text_reread (h row hrow))

theorem texts_tableText (hne : fieldnames ≠ []) (hnames : ∀ k ∈ fieldnames, Clean k)
    (hfits : ∀ row ∈ rows, row.Fits fieldnames) (hclean : ∀ row ∈ rows, ∀ k, Clean (row.text k)) :
    (rowsOf (some (tableText fieldnames rows))).map Row.text = rows.map Row.text := by
  rw [rowsOf, Option.getD_some, readTable_tableText hne hnames fun row hrow k _ => hclean row hrow k]
  exact map_text_reread fun row hrow => (hfits row hrow).2

theorem World.Table.texts (h : w.Table fieldnames rows) : w.texts = rows.map Row.text := by
  rw [World.texts, h.file]
  exact texts_tableText h.nonempty h.names h.fits h.clean

theorem rowsOf_of_empty {file : Option Text} (h : file.getD [] = []) : rowsOf file = [] := by
  rw [rowsOf, h]
  rfl

theorem World.Ok.length_texts (h : w.Ok) : w.texts.length = w.given.length := by
  rcases h.file with ⟨hgiven, hfile⟩ | ⟨fieldnames, rows, htable⟩
  · rw [hgiven, World.texts, rowsOf_of_empty hfile]
    rfl
  · rw [htable.texts, List.length_map, htable.length]

theorem World.Ok.append_spec (h : w.Ok) (ha : w.Admits (.append a)) :
    (w.step (.append a)).given = w.given ++ [a] ∧
      (w.step (.append a)).texts = w.texts ++ [a.row.text] := by
  obtain ⟨hne, hsame, hclean⟩ := ha
  have hrow := a.fits.clean fun k hk => (hclean k hk).2
  have hnames := fun k hk => (hclean k hk).1
  rcases h.file with ⟨hgiven, hfile⟩ | ⟨fieldnames, rows, htable⟩
  · have hstep : w.step (.append a) = { w with
        file := some (tableText a.fieldnames [a.row]), given := [a] } := by
      simp [World.step, appendRow, hfile, writeRow_eq a.fits, hgiven, tableText, Csv.Dialect.write]
    have hnil : w.texts = [] := by
      rw [World.texts, rowsOf_of_empty hfile]
      rfl
    rw [hstep, hgiven, hnil]
    refine ⟨rfl, texts_tableText hne hnames ?_ ?_⟩
    · exact fun row hr => List.mem_singleton.mp hr ▸ a.fits
    · exact fun row hr => List.mem_singleton.mp hr ▸ hrow
  · obtain ⟨b, hb⟩ := List.exists_mem_of_ne_nil _ htable.given
    obtain rfl : fieldnames = a.fieldnames := (htable.same b hb).symm.trans (hsame b hb)
    have hstep : w.step (.append a) = { w with
        file := some (tableText a.fieldnames (rows ++ [a.row])), given := w.given ++ [a] } := by
      simp [World.step, appendRow, htable.file, tableText_ne_nil, writeRow_eq a.fits, tableText_append]
    rw [hstep, htable.texts]
    refine ⟨rfl, (texts_tableText hne hnames ?_ ?_).trans (by simp)⟩
    · exact List.forall_mem_append.mpr ⟨htable.fits, fun row hr => List.mem_singleton.mp hr ▸ a.fits⟩
    · exact List.forall_mem_append.mpr ⟨htable.clean, fun row hr => List.mem_singleton.mp hr ▸ hrow⟩

theorem World.given_reconcile : (w.step (.reconcile logs)).given = w.given := by
  unfold World.step
  dsimp only
  split <;> rfl

theorem World.Ok.reconcile_spec (h : w.Ok) (ha : w.Admits (.reconcile logs)) :
    ∃ fieldnames rows', Settled logs fieldnames (rowsOf w.file) rows' ∧
      (∀ b ∈ w.given, b.fieldnames = fieldnames) ∧
      (w.step (.reconcile logs)).texts = rows'.map Row.text := by
  rcases h.file with ⟨hgiven, hfile⟩ | ⟨fieldnames, rows, htable⟩
  · refine ⟨[], [], ?_, by simp [hgiven], ?_⟩
    · rw [rowsOf_of_empty hfile]
      exact ⟨rfl, fun i row hrow => by simp at hrow⟩
    · have hstep : (w.step (.reconcile logs)).file.getD [] = [] := by
        cases hw : w.file with
        | none => simp [World.step, ResultFile.reconcile, hw]
        | some text =>
          obtain rfl : text = [] := by simpa [hw] using hfile
          have : ResultFile.reconcile (some []) logs = .ok (some [], 0) := rfl
          simp [World.step, hw, this]
      rw [World.texts, rowsOf_of_empty hstep]
  · obtain ⟨hlegible, hstatus⟩ := ha
    have hread := htable.read
    have hrows : rowsOf w.file = rows.map (Row.reread fieldnames) := by
      rw [rowsOf, hread]
    rw [hrows] at hlegible hstatus ⊢
    obtain ⟨b, hb⟩ := List.exists_mem_of_ne_nil _ htable.given
    have hfield (hdue : Due logs (rows.map (Row.reread fieldnames))) : status ∈ fieldnames :=
      htable.same b hb ▸ hstatus hdue b hb
    have hreread : ∀ row ∈ rows.map (Row.reread fieldnames), row.rest = none := by
      intro row hrow
      obtain ⟨i, hi⟩ := List.getElem?_of_mem hrow
      exact (htable.get hi).choose_spec.2.1
    have hclean : ∀ row ∈ rows.map (Row.reread fieldnames), row.keys = fieldnames ∧
        ∀ k, Clean (row.text k) := by
      intro row hrow
      exact (readTable_clean hread).2 row hrow
    rw [htable.file, Option.getD_some] at hread
    obtain ⟨rows', hsettled, hok⟩ := reconcile_ok hread hlegible fun hdue => ⟨hfield hdue, hreread⟩
    refine ⟨fieldnames, rows', hsettled, htable.same, ?_⟩
    rw [← htable.file] at hok
    rcases hok with ⟨-, heq, hok⟩ | ⟨hdue, hok⟩
    · simp only [World.step, hok, World.texts, heq, hrows]
    · simp only [World.step, hok, World.texts]
      refine texts_tableText htable.nonempty htable.names (fun row' hrow' => ⟨?_, ?_⟩)
        (hsettled.clean fun row hrow => (hclean row hrow).2)
      · obtain ⟨i, row, hrow, hi, -⟩ := hsettled.exists_row hrow'
        exact (hsettled.rest_eq hrow hi).trans (hreread row (List.mem_of_getElem? hrow))
      · exact hsettled.keys_subset (hfield hdue) (fun row hrow => (hclean row hrow).1) row' hrow'

end Texts

-- ---------------------------------------------------------------------------
-- What a row has been told
-- ---------------------------------------------------------------------------

/-- The texts of a row that was appended as `a`: as they were given, with a
`PARSE_ERROR` of its run, or with one result of its run and `OK`. -/
inductive Experiment.Told (s : Experiment) (a : Append) (t : Text → Text) : Prop
  | given (h : t = a.row.text)
  | faulted (hf : s.faultsOf (a.row.text runId) ≠ []) (e : Text)
      (h : t = Function.update a.row.text status (parseError ++ [':', ' '] ++ e))
  | measured (m : ResultDict) (hm : m ∈ s.metricsOf (a.row.text runId))
      (hstatus : t status = ok)
      (hin : ∀ e ∈ m.entries, e.1 ∈ a.fieldnames → t e.1 = e.2)
      (hout : ∀ k, k ≠ status → k ∉ m.entries.map Prod.fst → t k = a.row.text k)

section Told

variable {s s' : Experiment} {a : Append} {t t' : Text → Text} {row row' : Row}
  {fieldnames : List Text} {rows : List Row} {logs : Option RunLogs} {f : Fault}

theorem runId_ne_status : runId ≠ status := by decide +kernel

theorem strip_content (f : Fault) : strip (universalNewlines f.content) ≠ [] := by
  obtain ⟨hne, hspace⟩ := f.named
  obtain ⟨c, cs, hcs⟩ := List.exists_cons_of_ne_nil hne
  have hc : isSpace c = false := hspace c (hcs ▸ List.mem_cons_self)
  have hcr : c ≠ '\r' := by
    rintro rfl
    exact absurd hc (by decide)
  have hhead : universalNewlines f.content =
      c :: universalNewlines (cs ++ [':', ' '] ++ f.e ++ ['\n', '\n'] ++ f.tb) := by
    rw [Fault.content, hcs]
    simp only [List.cons_append]
    rw [universalNewlines]
    · exact fun cs h => absurd h hcr
    · exact fun h => absurd h hcr
  rw [hhead, strip, List.dropWhile_cons_of_neg (by simp [hc]), rstrip]
  intro hnil
  have := List.rdropWhile_eq_nil_iff.mp hnil c List.mem_cons_self
  rw [hc] at this
  cases this

namespace Experiment

/-- What a reconciler finds it can read. -/
theorem Finds.legible {markers : Markers} {entry current : Text} (h : s.Finds (entry, .dir markers)) :
    markers.Legible current := by
  obtain ⟨hm, he⟩ := h
  refine fun _ => ⟨fun hu => ?_, fun _ _ => ⟨fun hu => ?_, fun content hc => ?_⟩⟩
  · simp only [hu] at hm
  · simp only [hu] at he
  · simp only [hc] at he
    obtain ⟨f, -, rfl⟩ := he
    exact strip_content f

theorem Finds.metrics {markers : Markers} {entry : Text} {m : ResultDict}
    (h : s.Finds (entry, .dir markers)) (hm : markers.metrics = .written m) : m ∈ s.metricsOf entry := by
  have := h.1
  simpa only [hm] using this

theorem Finds.faults {markers : Markers} {entry : Text} (h : s.Finds (entry, .dir markers))
    (he : markers.error ≠ .absent) : s.faultsOf entry ≠ [] := by
  have hfound := h.2
  cases herror : markers.error with
  | absent => exact absurd herror he
  | unreadable => simpa only [herror] using hfound
  | undecodable => simp only [herror] at hfound
  | written content =>
    simp only [herror] at hfound
    obtain ⟨f, hf, -⟩ := hfound
    exact List.ne_nil_of_mem hf

theorem Told.runId_eq (h : s.Told a t) : t runId = a.row.text runId := by
  cases h with
  | given h => rw [h]
  | faulted _ _ h => rw [h, Function.update_of_ne runId_ne_status]
  | measured m _ _ _ hout =>
    refine hout runId runId_ne_status fun hk => ?_
    obtain ⟨e, he, hrun⟩ := List.mem_map.mp hk
    exact runId_not_mem_resultKeys (hrun ▸ m.keys e he)

/-- A row whose status is not `OK` has its other texts as they were given. -/
theorem Told.text_eq (h : s.Told a t) (hok : t status ≠ ok) {k : Text} (hk : k ≠ status) :
    t k = a.row.text k := by
  cases h with
  | given h => rw [h]
  | faulted _ _ h => rw [h, Function.update_of_ne hk]
  | measured _ _ hstatus => exact absurd hstatus hok

/-- A reconciler tells a row what the daemon has written for its run. -/
theorem Told.visit {i : Nat} (h : s.Told a row.text) (hfind : ∀ e ∈ ResultFile.entriesOf logs, s.Finds e)
    (hrow : rows[i]? = some row) (hsame : a.fieldnames = fieldnames)
    (hv : Visited fieldnames rows (ResultFile.entriesOf logs) i row row') : s.Told a row'.text := by
  rcases hv with ⟨rfl, -⟩ | ⟨markers, ⟨entry, hmem, hlast⟩, -, hdue, hpromoted⟩
  · exact h
  have hentry : entry = a.row.text runId := by
    obtain ⟨-, ⟨row₁, hrow₁, hid⟩, -⟩ := hlast
    rw [← hid, ← Option.some.inj (hrow.symm.trans hrow₁), h.runId_eq]
  have hf := hfind _ hmem
  rw [hentry] at hf
  cases hpromoted with
  | measured m hmetrics hstatus =>
    refine .measured m (hf.metrics hmetrics) ?_ (fun e he hfield => ?_) fun k hk hnot => ?_
    · rw [Row.text_set, if_pos rfl]
    · have hne : e.1 ≠ status := fun heq => status_not_mem_resultKeys (heq ▸ m.keys e he)
      rw [Row.text_set, if_neg hne, text_fold_of_mem m.distinct he (hsame ▸ hfield)]
    · rw [Row.text_set, if_neg hk, text_fold_of_not_mem (.inl hnot), h.text_eq hstatus hk]
  | faulty e hmetrics hstatus =>
    have herror : markers.error ≠ .absent := by
      rcases hdue.2 with ⟨m, hm⟩ | ⟨-, -, he⟩
      · rw [hmetrics] at hm
        cases hm
      · exact he
    refine .faulted (hf.faults herror) e (funext fun k => ?_)
    rw [failed, Row.text_set]
    by_cases hk : k = status
    · rw [if_pos hk, hk, Function.update_self]
    · rw [if_neg hk, Function.update_of_ne hk, h.text_eq hstatus hk]

theorem metricsOf_mono {id : Text} (hw : s.wrote <+: s'.wrote) : s.metricsOf id <+: s'.metricsOf id :=
  hw.filterMap _

theorem faultsOf_mono {id : Text} (hw : s.wrote <+: s'.wrote) (h : s.faultsOf id ≠ []) :
    s'.faultsOf id ≠ [] := by
  have hprefix : s.faultsOf id <+: s'.faultsOf id := hw.filterMap _
  rintro hnil
  rw [hnil] at hprefix
  exact h (List.prefix_nil.mp hprefix)

/-- More is written. -/
theorem Told.mono (h : s.Told a t) (hw : s.wrote <+: s'.wrote) : s'.Told a t := by
  cases h with
  | given h => exact .given h
  | faulted hf e h => exact .faulted (faultsOf_mono hw hf) e h
  | measured m hm hstatus hin hout =>
    exact .measured m ((metricsOf_mono hw).subset hm) hstatus hin hout

end Experiment

end Told

-- ---------------------------------------------------------------------------
-- What every step keeps
-- ---------------------------------------------------------------------------

/-- Rows are only added, and told something only as long as they are not `OK`. -/
structure World.Grows (w w' : World) : Prop where
  given : w.given <+: w'.given
  texts : ∀ (i : Nat) (t : Text → Text), w.texts[i]? = some t → ∃ t', w'.texts[i]? = some t' ∧
    (t' = t ∨ t status ≠ ok ∧ (t' status = ok ∨ parseError <+: t' status))

namespace World.Grows

variable {w w' w'' : World}

theorem refl (w : World) : w.Grows w := ⟨List.prefix_rfl, fun _ t ht => ⟨t, ht, .inl rfl⟩⟩

theorem trans (h : w.Grows w') (h' : w'.Grows w'') : w.Grows w'' := by
  refine ⟨h.given.trans h'.given, fun i t ht => ?_⟩
  obtain ⟨t', ht', hrow⟩ := h.texts i t ht
  obtain ⟨t'', ht'', hrow'⟩ := h'.texts i t' ht'
  refine ⟨t'', ht'', ?_⟩
  rcases hrow with rfl | ⟨hok, htold⟩
  · exact hrow'
  · rcases hrow' with rfl | ⟨-, htold'⟩
    · exact .inr ⟨hok, htold⟩
    · exact .inr ⟨hok, htold'⟩

theorem getElem? (h : w.Grows w') {i : Nat} {a : Append} (hi : i < w.given.length)
    (ha : w'.given[i]? = some a) : w.given[i]? = some a := by
  obtain ⟨new, hnew⟩ := h.given
  rwa [← hnew, List.getElem?_append_left hi] at ha

theorem of_getElem? (h : w.Grows w') {i : Nat} {a : Append} (ha : w.given[i]? = some a) :
    w'.given[i]? = some a := by
  obtain ⟨new, hnew⟩ := h.given
  rw [← hnew, List.getElem?_append_left (List.getElem?_eq_some_iff.mp ha).1, ha]

theorem length_le (h : w.Grows w') : w.given.length ≤ w'.given.length := h.given.length_le

end World.Grows

theorem World.Ok.grows_append {w : World} {a : Append} (h : w.Ok) (ha : w.Admits (.append a)) :
    w.Grows (w.step (.append a)) := by
  obtain ⟨hgiven, htexts⟩ := h.append_spec ha
  refine ⟨hgiven ▸ List.prefix_append _ _, fun i t ht => ⟨t, ?_, .inl rfl⟩⟩
  rw [htexts, List.getElem?_append_left (List.getElem?_eq_some_iff.mp ht).1, ht]

theorem World.Ok.grows_reconcile {w : World} {logs : Option RunLogs} (h : w.Ok)
    (ha : w.Admits (.reconcile logs)) : w.Grows (w.step (.reconcile logs)) := by
  obtain ⟨fieldnames, rows', hsettled, -, htexts⟩ := h.reconcile_spec ha
  refine ⟨World.given_reconcile ▸ List.prefix_rfl, fun i t ht => ?_⟩
  rw [World.texts, List.getElem?_map] at ht
  obtain ⟨row, hrow, rfl⟩ := Option.map_eq_some_iff.mp ht
  obtain ⟨row', hrow', hv⟩ := hsettled.row i row hrow
  refine ⟨row'.text, by rw [htexts, List.getElem?_map, hrow']; rfl, ?_⟩
  rcases hv with ⟨rfl, -⟩ | ⟨markers, -, -, -, hpromoted⟩
  · exact .inl rfl
  · refine .inr ?_
    cases hpromoted with
    | measured m _ hstatus => exact ⟨hstatus, .inl (by rw [Row.text_set, if_pos rfl])⟩
    | faulty e _ hstatus =>
      refine ⟨hstatus, .inr ?_⟩
      rw [ResultFile.failed, Row.text_set, if_pos rfl, List.append_assoc]
      exact List.prefix_append _ _

/-- The first `n` rows but those that are completed, with their indices. -/
def Input.todo (input : Input) (n : Nat) (completed : List Text) :
    List (InputRow input.columns × Nat) :=
  (input.rows.take n).zipIdx.filter fun p => !completed.contains (runIdOf p.1.row p.2)

namespace Experiment

def Launched (s : Experiment) (id : Text) : Prop := ∃ r ∈ s.launched, r.id = id

/-- Of the first `n` rows, those of the run that were recorded as downloaded have been
failed by the daemon. -/
def FailedOn (s : Experiment) (id : Text) (n : Nat) : Prop :=
  ∀ i a, i < n → s.world.given[i]? = some a → a.row.text status = downloaded →
    a.row.text runId = id → s.faultsOf id ≠ []

/-- One of the first `n` rows is of the run, and says that it is done. -/
def Recorded (s : Experiment) (id : Text) (n : Nat) : Prop :=
  ∃ i a t, i < n ∧ s.world.given[i]? = some a ∧ s.world.texts[i]? = some t ∧
    a.row.text runId = id ∧ (t status = ok ∨ t status = downloaded ∨ parseError <+: t status)

/-- The rows that a session has appended: one for each row up to `idx` that it found
not done, in this order, and with the texts of the input. -/
def Handled (s : Experiment) (ses : Session) : Prop :=
  List.Forall₂ (fun p a => ∃ st, a = ses.input.append p.1 st)
    (ses.input.todo ses.idx ses.completed) (s.world.given.drop ses.base)

end Experiment

/-- What holds of a session. -/
structure Session.Ok (s : Experiment) (ses : Session) : Prop where
  columns : ∀ b ∈ s.world.given, b.fieldnames = ses.input.fieldnames
  base : ses.base ≤ s.world.given.length
  seen : ses.seen ≤ s.world.given.length
  started : ses.phase = .starting → ses.idx = 0 ∧ ses.base = s.world.given.length
  running : ses.phase = .running ∨ ses.phase = .archived ∨ ses.phase = .ready ∨ ses.phase = .failed →
    ses.current.isSome ∧ ses.id ∉ ses.completed ∧ s.Launched ses.id
  unseen : ∀ id, id ≠ [] → id ∉ ses.completed → s.FailedOn id ses.seen
  recorded : ∀ id ∈ ses.completed, s.Recorded id ses.seen
  handled : s.Handled ses

/-- The directory that `_process_dir` is in. -/
def Daemon.At : Daemon → Text → Prop
  | .idle, _ => False
  | .parsing entry, id | .measured entry, id | .pruning entry, id | .faulty entry, id => entry = id

/-- The invariant of the experiment. -/
structure Experiment.Ok (s : Experiment) : Prop where
  world : s.world.Ok
  columns : ∀ b ∈ s.world.given, status ∈ b.fieldnames
  told : ∀ (i : Nat) (a : Append) (t : Text → Text), s.world.given[i]? = some a →
    s.world.texts[i]? = some t → s.Told a t
  wrote : ∀ w ∈ s.wrote, s.Launched w.1
  ready : ∀ entry d, s.dirs entry = some d → d.ready = true → s.Launched entry
  daemon : ∀ entry, s.daemon.At entry → s.Launched entry
  launched : ∀ r ∈ s.launched, r.seen ≤ s.world.given.length ∧ s.FailedOn r.id r.seen
  session : ∀ ses, s.session = some ses → ses.Ok s

section Mono

variable {s s' : Experiment} {ses : Session} {id : Text} {n : Nat}

theorem Experiment.FailedOn.mono (h : s.FailedOn id n) (hn : n ≤ s.world.given.length)
    (hg : s.world.Grows s'.world) (hw : s.wrote <+: s'.wrote) : s'.FailedOn id n := by
  intro i a hi ha hdown hid
  exact Experiment.faultsOf_mono hw (h i a hi (hg.getElem? (Nat.lt_of_lt_of_le hi hn) ha) hdown hid)

theorem Experiment.Recorded.mono (h : s.Recorded id n) (hg : s.world.Grows s'.world) :
    s'.Recorded id n := by
  obtain ⟨i, a, t, hi, ha, ht, hid, hstatus⟩ := h
  obtain ⟨t', ht', hrow⟩ := hg.texts i t ht
  refine ⟨i, a, t', hi, hg.of_getElem? ha, ht', hid, ?_⟩
  rcases hrow with rfl | ⟨-, htold | htold⟩
  · exact hstatus
  · exact .inl htold
  · exact .inr (.inr htold)

end Mono

-- ---------------------------------------------------------------------------
-- The session
-- ---------------------------------------------------------------------------

section Steps

variable {s s' : Experiment} {ses : Session} {row : InputRow ses.input.columns} {st id : Text}

/-- A step that appends nothing. -/
theorem Session.Ok.mono (h : ses.Ok s) (hgiven : s'.world.given = s.world.given)
    (hg : s.world.Grows s'.world) (hw : s.wrote <+: s'.wrote) (hl : s.launched ⊆ s'.launched) :
    ses.Ok s' where
  columns := hgiven ▸ h.columns
  base := hgiven ▸ h.base
  seen := hgiven ▸ h.seen
  started hp := by
    rw [hgiven]
    exact h.started hp
  running hp := by
    obtain ⟨hcur, hnot, r, hr, hid⟩ := h.running hp
    exact ⟨hcur, hnot, r, hl hr, hid⟩
  unseen id hid hnot := (h.unseen id hid hnot).mono h.seen hg hw
  recorded id hid := (h.recorded id hid).mono hg
  handled := by
    unfold Experiment.Handled
    rw [hgiven]
    exact h.handled

theorem Session.Ok.goto (h : ses.Ok s) {p : Phase} (hp : p ≠ .starting)
    (hr : ses.current.isSome ∧ ses.id ∉ ses.completed ∧ s.Launched ses.id) : (ses.goto p).Ok s where
  columns := h.columns
  base := h.base
  seen := h.seen
  started := fun h => absurd h hp
  running _ := hr
  unseen := h.unseen
  recorded := h.recorded
  handled := h.handled

theorem Session.done_iff : ses.done = true ↔ ses.id ∈ ses.completed := List.contains_iff_mem

theorem Session.not_done (h : ses.done = false) : ses.id ∉ ses.completed := by
  rw [← Session.done_iff, h]
  exact Bool.false_ne_true

theorem Session.id_eq (hcur : ses.current = some row) : ses.id = runIdOf row.row ses.idx := by
  simp only [id, hcur, Option.map_some, Option.getD_some]

/-- The rows up to the next one. -/
theorem Session.todo_next (hcur : ses.current = some row) :
    ses.input.todo (ses.idx + 1) ses.completed = ses.input.todo ses.idx ses.completed ++
      if ses.id ∈ ses.completed then [] else [(row, ses.idx)] := by
  have hlt : ses.idx < ses.input.rows.length := (List.getElem?_eq_some_iff.mp hcur).1
  have hrow : ses.input.rows[ses.idx]? = some row := hcur
  rw [Input.todo, Input.todo, List.take_add_one, hrow, Option.toList_some, List.zipIdx_append,
    List.filter_append, List.length_take_of_le (Nat.le_of_lt hlt), Nat.zero_add, Session.id_eq hcur]
  by_cases hdone : runIdOf row.row ses.idx ∈ ses.completed <;> simp [hdone]

theorem Session.Ok.skip (h : ses.Ok s) (hcur : ses.current = some row)
    (hdone : ses.id ∈ ses.completed) : ses.next.Ok s where
  columns := h.columns
  base := h.base
  seen := h.seen
  started := nofun
  running hp := by simp [Session.next] at hp
  unseen := h.unseen
  recorded := h.recorded
  handled := by
    show List.Forall₂ _ (ses.input.todo (ses.idx + 1) ses.completed) _
    rw [Session.todo_next hcur, if_pos hdone, List.append_nil]
    exact h.handled

theorem resultColumns_clean : ∀ k ∈ resultColumns, Clean k := by
  unfold Clean
  decide +kernel

theorem Input.status_mem (input : Input) : status ∈ input.fieldnames := by
  by_cases hc : status ∈ input.columns
  · exact List.mem_append_left _ hc
  · exact List.mem_append_right _ (List.mem_filter.mpr ⟨by decide +kernel, by simpa using hc⟩)

theorem Input.clean_fieldnames (input : Input) : ∀ k ∈ input.fieldnames, Clean k := by
  intro k hk
  rcases List.mem_append.mp hk with hk | hk
  · exact input.clean k hk
  · exact resultColumns_clean k (List.mem_filter.mp hk).1

theorem Session.Ok.admits (h : ses.Ok s) (row : InputRow ses.input.columns) (hst : Clean st) :
    s.world.Admits (.append (ses.input.append row st)) := by
  refine ⟨List.ne_nil_of_mem ses.input.status_mem, h.columns, fun k hk => ⟨?_, ?_⟩⟩
  · exact ses.input.clean_fieldnames k hk
  · show Clean ((row.row.out st).text k)
    rw [Row.text_out]
    split
    · exact hst
    · exact row.clean k

/-- The row at hand is recorded with a status. -/
theorem Session.Ok.append (h : ses.Ok s) (hs : s.world.Ok)
    (hcur : ses.current = some row) (hnot : ses.id ∉ ses.completed) (hst : Clean st)
    (hw : s'.world = s.world.step (.append (ses.input.append row st))) (hwrote : s'.wrote = s.wrote) :
    ses.next.Ok s' := by
  have ha := h.admits row hst
  have hg : s.world.Grows s'.world := hw ▸ hs.grows_append ha
  obtain ⟨hgiven, -⟩ := hs.append_spec ha
  rw [← hw] at hgiven
  refine ⟨?_, h.base.trans hg.length_le, h.seen.trans hg.length_le, nofun, ?_, fun id hid hn => ?_,
    fun id hid => (h.recorded id hid).mono hg, ?_⟩
  · rw [hgiven]
    exact List.forall_mem_append.mpr ⟨h.columns, fun b hb => List.mem_singleton.mp hb ▸ rfl⟩
  · intro hp
    simp [Session.next] at hp
  · exact (h.unseen id hid hn).mono h.seen hg (hwrote ▸ List.prefix_rfl)
  · show List.Forall₂ _ (ses.input.todo (ses.idx + 1) ses.completed) (s'.world.given.drop ses.base)
    rw [Session.todo_next hcur, if_neg hnot, hgiven, List.drop_append_of_le_length h.base]
    exact List.rel_append h.handled (.cons ⟨st, rfl⟩ .nil)

end Steps

-- ---------------------------------------------------------------------------
-- Every step
-- ---------------------------------------------------------------------------

namespace Experiment

variable {s s' : Experiment} {entry id : Text}

theorem Ok.init {file : Option Text} (h : file.getD [] = []) : Ok { world := { file } } where
  world := ⟨rfl, .inl ⟨rfl, h⟩⟩
  columns := nofun
  told i a t ha := by simp at ha
  wrote := nofun
  ready entry d hd := by cases hd
  daemon := nofun
  launched := nofun
  session := nofun

/-- A step that leaves the result file as it is. -/
theorem Ok.of_world (h : s.Ok) (hworld : s'.world = s.world) (hw : s.wrote <+: s'.wrote)
    (hl : s.launched ⊆ s'.launched) (wrote : ∀ w ∈ s'.wrote, s'.Launched w.1)
    (ready : ∀ entry d, s'.dirs entry = some d → d.ready = true → s'.Launched entry)
    (daemon : ∀ entry, s'.daemon.At entry → s'.Launched entry)
    (launched : ∀ r ∈ s'.launched, r ∈ s.launched ∨
      r.seen ≤ s.world.given.length ∧ s.FailedOn r.id r.seen)
    (session : ∀ ses, s'.session = some ses → s.session = some ses ∨ ses.Ok s') : s'.Ok where
  world := hworld ▸ h.world
  columns := hworld ▸ h.columns
  told i a t ha ht := (h.told i a t (hworld ▸ ha) (hworld ▸ ht)).mono hw
  wrote := wrote
  ready := ready
  daemon := daemon
  launched r hr := by
    obtain ⟨hseen, hfailed⟩ := (launched r hr).elim (h.launched r) fun h => h
    refine ⟨hworld ▸ hseen, hfailed.mono hseen ?_ hw⟩
    rw [hworld]
    exact .refl _
  session ses hses := by
    refine (session ses hses).elim (fun hses => ?_) fun h => h
    refine (h.session ses hses).mono (congrArg _ hworld) ?_ hw hl
    rw [hworld]
    exact .refl _

/-- One directory changes. -/
theorem Ok.setDir (h : s.Ok) {o : Option Dir}
    (ho : ∀ d, o = some d → d.ready = true → s.Launched entry) :
    { s with dirs := Function.update s.dirs entry o }.Ok := by
  refine h.of_world rfl List.prefix_rfl (List.Subset.refl _) h.wrote
    (fun id d (hd : Function.update s.dirs entry o id = some d) hready => ?_) h.daemon (fun _ => .inl)
    fun _ => .inl
  by_cases hid : id = entry
  · subst hid
    rw [Function.update_self] at hd
    exact ho d hd hready
  · rw [Function.update_of_ne hid] at hd
    exact h.ready id d hd hready

theorem Ok.setDaemon (h : s.Ok) {d : Daemon} (hd : ∀ entry, d.At entry → s.Launched entry) :
    { s with daemon := d }.Ok :=
  h.of_world rfl List.prefix_rfl (List.Subset.refl _) h.wrote h.ready hd (fun _ => .inl) fun _ => .inl

theorem Ok.idle (h : s.Ok) : { s with daemon := .idle }.Ok :=
  h.setDaemon fun _ hat => hat.elim

theorem Ok.setSession (h : s.Ok) {o : Option Session} (ho : ∀ ses, o = some ses → ses.Ok s) :
    { s with session := o }.Ok :=
  h.of_world rfl List.prefix_rfl (List.Subset.refl _) h.wrote h.ready h.daemon (fun _ => .inl)
    fun ses hses => .inr <|
      (ho ses hses).mono rfl (.refl _) List.prefix_rfl (List.Subset.refl _)

theorem Ok.remove (h : s.Ok) (entry : Text) (file : MarkerFile) : (s.remove entry file).Ok := by
  refine h.setDir fun d hd hready => ?_
  obtain ⟨d₀, hd₀, rfl⟩ := Option.map_eq_some_iff.mp hd
  refine h.ready entry d₀ hd₀ ?_
  cases file
  · cases hready
  · exact hready
  · exact hready

theorem Ok.put (h : s.Ok) (hl : s.Launched entry) (p : Parsed) : (s.put entry p).Ok := by
  cases hd : s.dirs entry with
  | none =>
    have hput : s.put entry p = s := by simp only [Experiment.put, hd]
    rwa [hput]
  | some d =>
    have hput : s.put entry p = { s with
        dirs := Function.update s.dirs entry (some (d.put p))
        wrote := s.wrote ++ [(entry, p)] } := by simp only [Experiment.put, hd]
    have hdir : { s with dirs := Function.update s.dirs entry (some (d.put p)) }.Ok :=
      h.setDir fun _ _ _ => hl
    rw [hput]
    refine hdir.of_world rfl (List.prefix_append _ _) (List.Subset.refl _) ?_ hdir.ready h.daemon
      (fun _ => .inl) fun _ => .inl
    refine List.forall_mem_append.mpr ⟨h.wrote, fun w hw => ?_⟩
    rw [List.mem_singleton.mp hw]
    exact hl

theorem put_world (s : Experiment) (entry : Text) (p : Parsed) : (s.put entry p).world = s.world := by
  unfold put
  split <;> rfl

theorem launched_put (s : Experiment) (entry : Text) (p : Parsed) (h : s.Launched id) :
    (s.put entry p).Launched id := by
  unfold put
  split <;> exact h

/-- The row at hand is recorded with a status. -/
theorem Ok.append (h : s.Ok) {ses : Session} (hses : s.session = some ses) {st : Text}
    (hcur : ses.current.isSome) (hnot : ses.id ∉ ses.completed) (hst : Clean st) :
    { s with world := s.write ses st, session := some ses.next }.Ok ∧
      s.world.Grows (s.write ses st) := by
  obtain ⟨row, hrow⟩ := Option.isSome_iff_exists.mp hcur
  have hok := h.session ses hses
  have ha := hok.admits row hst
  have hwrite : s.write ses st = s.world.step (.append (ses.input.append row st)) := by
    simp only [Experiment.write, hrow]
  have hg : s.world.Grows (s.write ses st) := hwrite ▸ h.world.grows_append ha
  obtain ⟨hgiven, htexts⟩ := h.world.append_spec ha
  have hw := h.world.append _ ha
  rw [← hwrite] at hgiven htexts hw
  generalize s.write ses st = w at *
  refine ⟨⟨?_, ?_, fun i a t hi ht => ?_, h.wrote, h.ready, h.daemon, fun r hr => ?_, ?_⟩, hg⟩
  · exact hw
  · show ∀ b ∈ w.given, _
    rw [hgiven]
    exact List.forall_mem_append.mpr
      ⟨h.columns, fun b hb => List.mem_singleton.mp hb ▸ ses.input.status_mem⟩
  · have hlength := h.world.length_texts
    replace hi : w.given[i]? = some a := hi
    replace ht : w.texts[i]? = some t := ht
    rw [hgiven] at hi
    rw [htexts] at ht
    rcases Nat.lt_or_ge i s.world.given.length with hlt | hge
    · rw [List.getElem?_append_left hlt] at hi
      rw [List.getElem?_append_left (hlength ▸ hlt)] at ht
      exact (h.told i a t hi ht).mono List.prefix_rfl
    · rw [List.getElem?_append_right hge] at hi
      rw [List.getElem?_append_right (hlength ▸ hge)] at ht
      rw [List.mem_singleton.mp (List.mem_of_getElem? hi),
        List.mem_singleton.mp (List.mem_of_getElem? ht)]
      exact .given rfl
  · obtain ⟨hseen, hfailed⟩ := h.launched r hr
    exact ⟨hseen.trans hg.length_le, hfailed.mono hseen hg List.prefix_rfl⟩
  · rintro ses' heq
    obtain rfl := Option.some.inj heq
    exact hok.append h.world hrow hnot hst hwrite rfl

theorem Ok.reconcile (h : s.Ok) {logs : Option RunLogs} (hfind : ∀ e ∈ entriesOf logs, s.Finds e) :
    (s.step (.reconcile logs)).Ok ∧ s.world.Grows (s.world.step (.reconcile logs)) := by
  have ha : s.world.Admits (.reconcile logs) := by
    refine ⟨fun i markers row hmarked hrow => ?_, fun _ => h.columns⟩
    obtain ⟨entry, hmem, -⟩ := hmarked
    exact (hfind _ hmem).legible
  have hg := h.world.grows_reconcile ha
  have hgiven : (s.world.step (.reconcile logs)).given = s.world.given := World.given_reconcile
  obtain ⟨fieldnames, rows', hsettled, hsame, htexts⟩ := h.world.reconcile_spec ha
  refine ⟨⟨h.world.reconcile ha, hgiven ▸ h.columns, fun i a t hi ht => ?_, h.wrote, h.ready, h.daemon,
    fun r hr => ?_, fun ses hses => ?_⟩, hg⟩
  · replace hi : (s.world.step (.reconcile logs)).given[i]? = some a := hi
    replace ht : (s.world.step (.reconcile logs)).texts[i]? = some t := ht
    rw [hgiven] at hi
    rw [htexts, List.getElem?_map] at ht
    obtain ⟨row', hrow', rfl⟩ := Option.map_eq_some_iff.mp ht
    have hlt : i < (rowsOf s.world.file).length :=
      hsettled.length ▸ (List.getElem?_eq_some_iff.mp hrow').1
    have hrow := List.getElem?_eq_getElem hlt
    have htold := h.told i a _ hi (by rw [World.texts, List.getElem?_map, hrow]; rfl)
    exact (htold.visit hfind hrow (hsame a (List.mem_of_getElem? hi)) (hsettled.get hrow hrow')).mono
      List.prefix_rfl
  · obtain ⟨hseen, hfailed⟩ := h.launched r hr
    exact ⟨hseen.trans hg.length_le, hfailed.mono hseen hg List.prefix_rfl⟩
  · exact (h.session ses hses).mono hgiven hg List.prefix_rfl (List.Subset.refl _)

/-- A session has read the result file. -/
theorem Ok.resume (h : s.Ok) {ses : Session} (hses : s.session = some ses) (hp : ses.phase = .starting) :
    Session.Ok s { ses with
      completed := completedIds (rowsOf s.world.file)
      seen := s.world.given.length
      phase := .row } := by
  have hok := h.session ses hses
  obtain ⟨hidx, hbase⟩ := hok.started hp
  have hlength := h.world.length_texts
  refine ⟨hok.columns, hok.base, Nat.le_refl _, nofun, fun hp => by simp at hp, ?_, ?_, ?_⟩
  · intro id hid hnot i a hi ha hdown hrun
    obtain ⟨t, ht⟩ : ∃ t, s.world.texts[i]? = some t := by
      rw [← hlength] at hi
      exact ⟨_, List.getElem?_eq_getElem hi⟩
    have htold := h.told i a t ha ht
    have hne : t status ≠ ok ∧ t status ≠ downloaded := by
      rw [World.texts, List.getElem?_map] at ht
      obtain ⟨row, hrow, rfl⟩ := Option.map_eq_some_iff.mp ht
      have hrun' : row.text runId = id := htold.runId_eq.trans hrun
      refine not_or.mp fun hdone => hnot (List.mem_map.mpr ⟨row, ?_, hrun'⟩)
      exact List.mem_filter.mpr ⟨List.mem_of_getElem? hrow, by simpa [hrun', hid] using hdone⟩
    cases htold with
    | given heq => exact absurd (heq ▸ hdown) hne.2
    | faulted hf => exact hrun ▸ hf
    | measured _ _ hstatus => exact absurd hstatus hne.1
  · intro id hid
    obtain ⟨row, hrow, rfl⟩ := List.mem_map.mp hid
    obtain ⟨hmem, hdone⟩ := List.mem_filter.mp hrow
    obtain ⟨i, hi⟩ := List.getElem?_of_mem hmem
    have ht : s.world.texts[i]? = some row.text := by
      rw [World.texts, List.getElem?_map, hi]
      rfl
    have hlt : i < s.world.given.length := hlength ▸ (List.getElem?_eq_some_iff.mp ht).1
    have ha := List.getElem?_eq_getElem hlt
    refine ⟨i, _, row.text, hlt, ha, ht, (h.told i _ _ ha ht).runId_eq.symm, ?_⟩
    simp only [decide_eq_true_eq] at hdone
    exact hdone.2.imp_right .inl
  · show List.Forall₂ _ (ses.input.todo ses.idx _) (s.world.given.drop ses.base)
    rw [hidx, hbase, List.drop_length]
    exact .nil

theorem runIdOf_ne_nil (row : Row) (idx : Nat) : runIdOf row idx ≠ [] := by
  unfold runIdOf
  split
  · exact fun h => Nat.repr_ne_empty (String.toList_eq_nil_iff.mp h)
  · assumption

theorem Ok.launch (h : s.Ok) {ses : Session} (hses : s.session = some ses) (hcur : ses.current.isSome)
    (hnot : ses.id ∉ ses.completed) : (s.act ses .launch).Ok := by
  have hok := h.session ses hses
  obtain ⟨row, hrow⟩ := Option.isSome_iff_exists.mp hcur
  have hne : ses.id ≠ [] := Session.id_eq hrow ▸ runIdOf_ne_nil row.row ses.idx
  have hl {id : Text} : s.Launched id → (s.act ses .launch).Launched id :=
    fun ⟨r, hr, hid⟩ => ⟨r, List.mem_append_left _ hr, hid⟩
  refine h.of_world rfl List.prefix_rfl (List.subset_append_left _ _) (fun w hw => hl (h.wrote w hw))
    (fun entry d hd hready => hl (h.ready entry d hd hready)) (fun entry hd => hl (h.daemon entry hd))
    (fun r hr => ?_) fun ses' hses' => .inr ?_
  · refine (List.mem_append.mp hr).imp_right fun hr => ?_
    rw [List.mem_singleton.mp hr]
    exact ⟨hok.seen, hok.unseen ses.id hne hnot⟩
  · obtain rfl := Option.some.inj hses'
    have hok' : Session.Ok (s.act ses .launch) ses :=
      hok.mono rfl (.refl _) List.prefix_rfl (List.subset_append_left _ _)
    refine hok'.goto nofun ⟨hcur, hnot, ⟨ses.id, ses.seen⟩, ?_, rfl⟩
    exact List.mem_append_right _ List.mem_cons_self

/-- The daemon writes into the directory it is in. -/
theorem Ok.write (h : s.Ok) {d : Daemon} (hd : s.daemon.At entry) (p : Parsed)
    (hat : ∀ id, d.At id → entry = id) :
    { s.put entry p with daemon := d }.Ok ∧ s.world.Grows (s.put entry p).world := by
  have hl : s.Launched entry := h.daemon entry hd
  refine ⟨(h.put hl p).setDaemon fun id hid => ?_, s.put_world entry p ▸ .refl _⟩
  rw [← hat id hid]
  exact s.launched_put entry p hl

/-- A step of the session. -/
theorem Ok.act (h : s.Ok) {ses : Session} {e : Act} (hses : s.session = some ses)
    (he : s.Follows ses e) : (s.act ses e).Ok ∧ s.world.Grows (s.act ses e).world := by
  have hok := h.session ses hses
  have hkeep (p : Phase) (hp : p ≠ .starting)
      (hr : ses.current.isSome ∧ ses.id ∉ ses.completed ∧ s.Launched ses.id) :
      { s with session := some (ses.goto p) }.Ok :=
    h.setSession fun ses' heq => Option.some.inj heq ▸ hok.goto hp hr
  have hgrow : s.world.Grows s.world := .refl _
  cases e with
  | resume => exact ⟨h.setSession fun ses' heq => Option.some.inj heq ▸ h.resume hses he, hgrow⟩
  | skip =>
    obtain ⟨-, hcur, hdone⟩ := he
    obtain ⟨row, hrow⟩ := Option.isSome_iff_exists.mp hcur
    refine ⟨h.setSession fun ses' heq => ?_, hgrow⟩
    exact Option.some.inj heq ▸ hok.skip hrow (Session.done_iff.mp hdone)
  | reject why =>
    obtain ⟨-, hcur, hnot, hclean⟩ := he
    exact h.append hses hcur (Session.not_done hnot) hclean
  | diskFull msg =>
    obtain ⟨-, hcur, hnot, hclean⟩ := he
    obtain ⟨hs', hg⟩ := h.append hses hcur (Session.not_done hnot) hclean
    refine ⟨hs'.setSession (o := some (ses.next.goto .halted)) fun ses' heq => ?_, hg⟩
    obtain rfl := Option.some.inj heq
    have hnext := hs'.session ses.next rfl
    exact ⟨hnext.columns, hnext.base, hnext.seen, nofun, fun hp => by simp [Session.goto] at hp,
      hnext.unseen, hnext.recorded, hnext.handled⟩
  | launch =>
    obtain ⟨-, hcur, hnot⟩ := he
    exact ⟨h.launch hses hcur (Session.not_done hnot), hgrow⟩
  | unlink file => exact ⟨h.remove ses.id file, hgrow⟩
  | rmtree => exact ⟨h.setDir fun d hd => by simp at hd, hgrow⟩
  | copytree =>
    have hrun := hok.running (he.1.imp_right fun hp => .inr (.inr hp))
    refine ⟨(h.setDir fun _ _ _ => hrun.2.2).setSession fun ses' heq => ?_, hgrow⟩
    obtain rfl := Option.some.inj heq
    split
    · exact (hok.goto (p := .archived) nofun hrun).mono rfl (.refl _) List.prefix_rfl (List.Subset.refl _)
    · exact hok.mono rfl (.refl _) List.prefix_rfl (List.Subset.refl _)
  | noLogs => exact ⟨hkeep .archived nofun (hok.running (.inl he)), hgrow⟩
  | markReady =>
    have hrun := hok.running (.inr (.inl he))
    refine ⟨(h.setDir fun _ _ _ => hrun.2.2).setSession fun ses' heq => ?_, hgrow⟩
    obtain rfl := Option.some.inj heq
    exact (hok.goto (p := .ready) nofun hrun).mono rfl (.refl _) List.prefix_rfl (List.Subset.refl _)
  | record =>
    obtain ⟨hcur, hnot, -⟩ := hok.running (.inr (.inr (.inl he)))
    exact h.append hses hcur hnot (by unfold Clean; decide +kernel)
  | raise =>
    refine ⟨hkeep .failed nofun (hok.running ?_), hgrow⟩
    exact he.imp_right fun hp => hp.imp_right .inl
  | recordError msg =>
    obtain ⟨hcur, hnot, -⟩ := hok.running (.inr (.inr (.inr he.1)))
    exact h.append hses hcur hnot he.2
  | finish => exact ⟨h.setSession nofun, hgrow⟩
  | interrupt => exact ⟨h.setSession nofun, hgrow⟩
  | _ => exact ⟨h, hgrow⟩

theorem Ok.step (h : s.Ok) {e : Act} (he : s.Admits e) :
    (s.step e).Ok ∧ s.world.Grows (s.step e).world := by
  have hgrow : s.world.Grows s.world := .refl _
  have hact {e : Act} (he : s.Permits e) : (s.advance e).Ok ∧ s.world.Grows (s.advance e).world := by
    unfold Permits at he
    unfold Experiment.advance
    cases hses : s.session with
    | none => simp [hses] at he
    | some ses =>
      simp only [hses] at he
      exact h.act hses he
  cases e with
  | start text =>
    simp only [Admits] at he
    simp only [Experiment.step]
    cases hread : Input.read text with
    | none => exact ⟨h, hgrow⟩
    | some input =>
      simp only [hread] at he
      refine ⟨h.setSession fun ses heq => ?_, hgrow⟩
      obtain rfl := Option.some.inj heq
      refine ⟨he.2, Nat.le_refl _, Nat.zero_le _, fun _ => ⟨rfl, rfl⟩, fun hp => by simp at hp,
        fun id _ _ i a hi => by simp at hi, fun id hid => by simp at hid, ?_⟩
      show List.Forall₂ _ (input.todo 0 []) (s.world.given.drop s.world.given.length)
      rw [List.drop_length]
      exact .nil
  | scan entry =>
    simp only [Experiment.step]
    cases hd : s.dirs entry with
    | none => exact ⟨h, hgrow⟩
    | some d =>
      dsimp only
      split
      · exact ⟨h, hgrow⟩
      · rename_i hready
        split
        · exact ⟨h.remove entry .ready, hgrow⟩
        · refine ⟨h.setDaemon fun id hid => ?_, hgrow⟩
          obtain rfl : entry = id := hid
          exact h.ready entry d hd (by simpa using hready)
  | parse m =>
    simp only [Experiment.step]
    split
    · rename_i entry hd
      exact h.write (hd ▸ rfl) (.metrics m) fun _ h => h
    · exact ⟨h, hgrow⟩
  | fault f =>
    simp only [Experiment.step]
    split
    · rename_i entry hd
      exact h.write (hd ▸ rfl) (.error f) fun _ h => h
    · rename_i entry hd
      exact h.write (hd ▸ rfl) (.error f) fun _ h => h
    · rename_i entry hd
      exact h.write (hd ▸ rfl) (.error f) fun _ h => h
    · exact ⟨h, hgrow⟩
  | lost =>
    have hlost {entry : Text} (hd : s.daemon.At entry) :
        { s with daemon := .faulty entry }.Ok ∧ s.world.Grows s.world :=
      ⟨h.setDaemon fun id hid => hid ▸ h.daemon entry hd, hgrow⟩
    simp only [Experiment.step]
    split
    · rename_i hd
      exact hlost (hd ▸ rfl)
    · rename_i hd
      exact hlost (hd ▸ rfl)
    · rename_i hd
      exact hlost (hd ▸ rfl)
    · exact ⟨h, hgrow⟩
  | unready =>
    simp only [Experiment.step]
    split
    · rename_i entry hd
      refine ⟨(h.remove entry .ready).setDaemon fun id hid => ?_, hgrow⟩
      exact h.daemon id (hd ▸ hid)
    · exact ⟨(h.remove _ .ready).idle, hgrow⟩
    · exact ⟨h, hgrow⟩
  | done => exact ⟨h.idle, hgrow⟩
  | stop => exact ⟨h.idle, hgrow⟩
  | reconcile logs => exact h.reconcile he
  | _ => exact hact he

end Experiment

-- ---------------------------------------------------------------------------
-- Whole experiments
-- ---------------------------------------------------------------------------

/-- Whatever is interrupted and whoever reconciles when, the file holds the rows that
were appended, each as it was given, with a `PARSE_ERROR` once the daemon has failed on
its run, or with one result of its run. The daemon works on runs that were started, and
an `OK` row is never changed. -/
theorem results_traceable (file : Option Text) (es es' : List Act) (hfile : file.getD [] = [])
    (h : Run.Allowed Experiment.step Experiment.Admits { world := { file } } (es ++ es')) :
    let s := Run.exec Experiment.step { world := { file } } es
    let s' := Run.exec Experiment.step { world := { file } } (es ++ es')
    s.world.failed = false ∧ s.world.texts.length = s.world.given.length ∧
      (∀ (i : Nat) (a : Append) (t : Text → Text), s.world.given[i]? = some a →
        s.world.texts[i]? = some t → s.Told a t) ∧
      (∀ w ∈ s.wrote, s.Launched w.1) ∧
      ∀ (i : Nat) (t : Text → Text), s.world.texts[i]? = some t → t status = ok →
        s'.world.texts[i]? = some t := by
  intro s s'
  obtain ⟨hes, hes'⟩ := Run.allowed_append.mp h
  have hok : s.Ok := hes.inv (.init hfile) fun _ _ hs he => (hs.step he).1
  refine ⟨hok.world.failed, hok.world.length_texts, hok.told, hok.wrote, fun i t ht hstatus => ?_⟩
  have hgrows : s.world.Grows s'.world := by
    simp only [s', Run.exec_append]
    exact hes'.rel (I := Experiment.Ok) (R := fun s s' => s.world.Grows s'.world) hok
      (fun _ _ hs he => (hs.step he).1) (fun _ => .refl _) (fun _ _ _ => .trans)
      fun _ _ hs he => (hs.step he).2
  obtain ⟨t', ht', rfl | ⟨hne, -⟩⟩ := hgrows.texts i t ht
  · exact ht'
  · exact absurd hstatus hne

def twoRuns : Text := "run_id,rate\r\nr1,5\r\nr2,6\r\n".toList

/-- The first run is downloaded and parsed; the session is interrupted in the second. -/
def interrupted : List Act :=
  [.start twoRuns, .resume, .launch, .copytree, .markReady, .record, .scan "r1".toList, .launch,
    .parse threeTps, .interrupt, .unready, .done, .reconcile (some (logsOfR1 (.written threeTps)))]

/-- Another session, in which the second run fails. -/
def resumed : List Act :=
  [.start twoRuns, .resume, .skip, .launch, .raise, .recordError "timeout".toList, .finish]

theorem results_traceable_interrupted :
    let s' := Run.exec Experiment.step { world := { file := none } } (interrupted ++ resumed)
    (s'.world.texts[0]?.map fun t => (t status, t "tps".toList)) = some (ok, "3.0".toList) := by
  intro s'
  obtain ⟨-, -, -, -, hkept⟩ := results_traceable none interrupted resumed rfl (by decide +kernel)
  have hrow : ((Run.exec Experiment.step { world := { file := none } } interrupted).world.texts[0]?.map
      fun t => (t status, t "tps".toList)) = some (ok, "3.0".toList) := by decide +kernel
  obtain ⟨t, ht, htext⟩ := Option.map_eq_some_iff.mp hrow
  rw [hkept 0 t ht (congrArg Prod.fst htext), Option.map_some, htext]

/-- A session skips what one of the rows it has read says is done, and appends one row
for every other row of its input, in their order. A run that it starts again although
it was recorded as downloaded is one that the daemon has failed on. -/
theorem sessions_resume (file : Option Text) (es : List Act) (hfile : file.getD [] = [])
    (h : Run.Allowed Experiment.step Experiment.Admits { world := { file } } es) :
    let s := Run.exec Experiment.step { world := { file } } es
    (∀ r ∈ s.launched, s.FailedOn r.id r.seen) ∧
      ∀ ses, s.session = some ses → s.Handled ses ∧ ∀ id ∈ ses.completed, s.Recorded id ses.seen := by
  intro s
  have hok : s.Ok := h.inv (.init hfile) fun _ _ hs he => (hs.step he).1
  refine ⟨fun r hr => (hok.launched r hr).2, fun ses hses => ?_⟩
  exact ⟨(hok.session ses hses).handled, (hok.session ses hses).recorded⟩

def noSummary : Fault where
  type := "ParseError".toList
  named := ⟨by decide +kernel, by simp [isSpace]⟩
  e := "no summary".toList
  tb := []

/-- The daemon fails on the first run, which the next session starts again. -/
def parseFailed : List Act :=
  [.start twoRuns, .resume, .launch, .copytree, .markReady, .record, .scan "r1".toList, .fault noSummary,
    .unready, .interrupt,
    .reconcile (some ⟨[("r1".toList, .dir ⟨.absent, .written noSummary.content⟩)], by simp⟩),
    .start twoRuns, .resume, .launch]

theorem sessions_resume_parseFailed :
    let s := Run.exec Experiment.step { world := { file := none } } parseFailed
    ⟨"r1".toList, 1⟩ ∈ s.launched ∧ s.faultsOf "r1".toList ≠ [] := by
  intro s
  obtain ⟨hfailed, -⟩ := sessions_resume none parseFailed rfl (by decide +kernel)
  have hr : ⟨"r1".toList, 1⟩ ∈ s.launched := by decide +kernel
  have hdown : (s.world.given[0]?.map fun a => (a.row.text status, a.row.text runId)) =
      some (downloaded, "r1".toList) := by decide +kernel
  obtain ⟨a, ha, htext⟩ := Option.map_eq_some_iff.mp hdown
  exact ⟨hr, hfailed _ hr 0 a Nat.one_pos ha (congrArg Prod.fst htext) (congrArg Prod.snd htext)⟩

end HotStuffTx.ResultFile
