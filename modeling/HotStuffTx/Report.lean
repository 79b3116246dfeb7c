import HotStuffTx.LogParser

/-!
# Reports from logs that were cut

What the flushed lines say of a client does not depend on where its dump was
cut. The figures of `result_dict` come from them where every client has a
summary to read, and otherwise from what is left of the dumps.
-/

set_option linter.unusedSectionVars false

namespace HotStuffTx

namespace ClientRun

variable (c : ClientRun)

/-- The numbers of the summary line but the first. -/
def summaryNumbers : List ℚ :=
  [c.window, c.latencies.sum / c.elapsed.length, pct c.latencies (1 / 2),
    pct c.latencies (95 / 100), pct c.latencies (99 / 100), maxElement c.latencies]

/-- The client prints a summary line, and none of its numbers has a minus sign. -/
def Summarised : Prop := c.elapsed ≠ [] ∧ Unsigned c.summaryNumbers

instance : Decidable c.Summarised := by
  unfold Summarised
  infer_instance

/-- No number with a minus sign follows one without in the line of latency sums. -/
def SumsReadable : Prop := ∀ x ∈ c.latsums.head?, 0 ≤ x → Unsigned c.latsums

instance : Decidable c.SumsReadable := by
  unfold SumsReadable
  infer_instance

def summaryRead : Option Summary :=
  if c.Summarised then
    some ⟨c.elapsed.length, c.window, c.latencies.sum / c.elapsed.length, pct c.latencies (1 / 2),
      pct c.latencies (95 / 100), pct c.latencies (99 / 100), maxElement c.latencies⟩
  else none

/-- The numbers of the steady line whose pattern admits no minus sign. -/
def steadyNumbers : List ℚ :=
  let wl := c.windowLatencies
  [c.runStart, c.run, c.measWarmup, c.measCooldown, c.span,
    if wl = [] then 0 else wl.sum / wl.length,
    pct wl (1 / 2), pct wl (95 / 100), pct wl (99 / 100), maxElement wl]

def steadyRead : Option Steady :=
  let wl := c.windowLatencies
  if Unsigned c.steadyNumbers then
    some ⟨c.runStart, c.run, c.measWarmup, c.measCooldown, c.span, wl.length,
      if wl = [] then 0 else wl.sum / wl.length,
      pct wl (1 / 2), pct wl (95 / 100), pct wl (99 / 100), maxElement wl,
      c.firstCommit, c.lastCommit, c.buckets, ((readSeconds c.latsums).bind fun l => l).getD []⟩
  else none

end ClientRun

-- ---------------------------------------------------------------------------
-- Reading a log
-- ---------------------------------------------------------------------------

theorem foldlM_commits (s : Reading) (es : List (ℚ × ℚ)) :
    ∃ ts lat, (es.map fun e => LogLine.commit e.1 e.2).foldlM Reading.readLine s =
      some { s with timestamps := ts, latencies := lat } := by
  induction es generalizing s with
  | nil => exact ⟨s.timestamps, s.latencies, rfl⟩
  | cons e es ih =>
    rw [List.map_cons, List.foldlM_cons, Reading.readLine]
    split
    · obtain ⟨ts, lat, h⟩ := ih { s with
        timestamps := s.timestamps ++ [e.1], latencies := s.latencies ++ [e.2] }
      exact ⟨ts, lat, h⟩
    · exact ih s

namespace ClientRun

variable {c : ClientRun}

theorem readSeconds_isSome : (readSeconds c.latsums).isSome ↔ c.SumsReadable := by
  unfold SumsReadable
  match c.latsums with
  | [] => exact iff_of_true rfl nofun
  | x :: xs =>
    rw [readSeconds]
    by_cases hx : x < 0
    · rw [if_pos hx]
      refine iff_of_true rfl fun y hy h0 => ?_
      cases hy
      exact absurd h0 (not_le.mpr hx)
    · rw [if_neg hx]
      have hx := not_lt.mp hx
      split
      · rename_i hxs
        exact iff_of_true rfl fun _ _ _ => List.forall_mem_cons.mpr ⟨hx, hxs⟩
      · rename_i hxs
        refine iff_of_false nofun fun h => hxs ?_
        exact (List.forall_mem_cons.mp (h x rfl hx)).2

theorem foldlM_summaryLine : c.summaryLine.foldlM Reading.readLine .empty =
    some { Reading.empty with summary := c.summaryRead } := by
  rw [summaryLine, summaryRead]
  by_cases he : c.elapsed = []
  · rw [if_pos he, if_neg fun h => h.1 he]
    rfl
  · rw [if_neg he, List.foldlM_cons, Reading.readLine]
    by_cases hu : Unsigned c.summaryNumbers
    · rw [if_pos ⟨rfl, hu⟩, if_pos ⟨he, hu⟩]
      rfl
    · rw [if_neg fun h => hu h.2, if_neg fun h => hu h.2]
      rfl

theorem foldlM_aggregates : c.aggregates.foldlM Reading.readLine .empty =
    (readSeconds c.latsums).map fun l => ⟨[], [], c.summaryRead,
      c.steadyRead.map fun x => { x with buckets := [], latsums := [] }, some c.buckets, l⟩ := by
  rw [aggregates, List.foldlM_append, foldlM_summaryLine]
  change List.foldlM Reading.readLine _ _ = _
  rw [List.foldlM_cons, steadyLine, Reading.readLine, steadyRead]
  have hnumbers : Unsigned c.steadyNumbers ↔ Unsigned [c.runStart, c.run, c.measWarmup,
      c.measCooldown, c.span,
      if c.windowLatencies = [] then 0 else c.windowLatencies.sum / c.windowLatencies.length,
      pct c.windowLatencies (1 / 2), pct c.windowLatencies (95 / 100),
      pct c.windowLatencies (99 / 100), maxElement c.windowLatencies] := Iff.rfl
  by_cases hu : Unsigned c.steadyNumbers
  · rw [if_pos ⟨rfl, hnumbers.mp hu⟩, if_pos hu]
    change (Option.map _ (readSeconds c.latsums)).bind _ = _
    cases readSeconds c.latsums <;> rfl
  · rw [if_neg fun h => hu (hnumbers.mpr h.2), if_neg hu]
    change (Option.map _ (readSeconds c.latsums)).bind _ = _
    cases readSeconds c.latsums <;> rfl

theorem finish_aggregates (ts lat : List ℚ) (h : readSeconds c.latsums = some l) :
    Reading.finish ⟨ts, lat, c.summaryRead,
      c.steadyRead.map fun x => { x with buckets := [], latsums := [] }, some c.buckets, l⟩ =
    ⟨ts.insertionSort (· ≤ ·), lat.insertionSort (· ≤ ·), c.summaryRead, c.steadyRead⟩ := by
  simp only [Reading.finish, steadyRead, h]
  split <;> rfl

/-- The records of the dump add times and latencies only. -/
theorem read_log (c : ClientRun) (cut : Cut) : ∃ ts lat, readClientLog (c.log cut) =
    (readSeconds c.latsums).map fun _ => ⟨ts, lat, c.summaryRead, c.steadyRead⟩ := by
  have hdump : ∃ es : List (ℚ × ℚ), c.log cut =
      c.aggregates ++ es.map fun e => LogLine.commit e.1 e.2 := by
    rw [log, dump, ← List.map_take]
    split
    · rename_i latency e _ _
      exact ⟨c.elapsed.take cut.whole ++ [(e.1, latency)], by rw [List.map_append]; rfl⟩
    · exact ⟨c.elapsed.take cut.whole, by rw [List.append_nil]⟩
  obtain ⟨es, hes⟩ := hdump
  rw [readClientLog, hes, List.foldlM_append, foldlM_aggregates]
  match h : readSeconds c.latsums with
  | none => exact ⟨[], [], rfl⟩
  | some l =>
    obtain ⟨ts, lat, hcommits⟩ := foldlM_commits ⟨[], [], c.summaryRead,
      c.steadyRead.map fun x => { x with buckets := [], latsums := [] }, some c.buckets, l⟩ es
    refine ⟨ts.insertionSort (· ≤ ·), lat.insertionSort (· ≤ ·), ?_⟩
    rw [Option.map_some]
    change (List.foldlM Reading.readLine _ _).map _ = _
    rw [hcommits, Option.map_some, finish_aggregates ts lat h, Option.map_some]

theorem read_aggregates (c : ClientRun) : readClientLog c.aggregates =
    (readSeconds c.latsums).map fun _ => ⟨[], [], c.summaryRead, c.steadyRead⟩ := by
  rw [readClientLog, foldlM_aggregates]
  match h : readSeconds c.latsums with
  | none => rfl
  | some l =>
    rw [Option.map_some, Option.map_some, finish_aggregates [] [] h]
    rfl

end ClientRun

-- ---------------------------------------------------------------------------
-- The figures
-- ---------------------------------------------------------------------------

namespace LogParser

variable {p p' : LogParser}

/-- The logs are read as the clients' flushed lines and their dumps have it. -/
theorem samples_of_logs (logs : List (ClientRun × Cut)) (h : ∀ x ∈ logs, x.1.SumsReadable) :
    ∃ samples, (logs.map fun x => x.1.log x.2).mapM readClientLog = some samples ∧
      samples.map (·.summary) = logs.map (·.1.summaryRead) ∧
      samples.map (·.steady) = logs.map (·.1.steadyRead) ∧
      ((∀ x ∈ logs, x.1.log x.2 = x.1.aggregates) →
        ∀ s ∈ samples, s.timestamps = [] ∧ s.latencies = []) := by
  induction logs with
  | nil =>
    refine ⟨[], rfl, rfl, rfl, ?_⟩
    rintro - s hs
    cases hs
  | cons x logs ih =>
    obtain ⟨hx, h⟩ := List.forall_mem_cons.mp h
    obtain ⟨samples, hread, hsum, hsteady, hts⟩ := ih h
    obtain ⟨l, hl⟩ := Option.isSome_iff_exists.mp (ClientRun.readSeconds_isSome.mpr hx)
    obtain ⟨ts, lat, hlog⟩ := x.1.read_log x.2
    rw [hl, Option.map_some] at hlog
    refine ⟨⟨ts, lat, x.1.summaryRead, x.1.steadyRead⟩ :: samples, ?_,
      congrArg (x.1.summaryRead :: ·) hsum, congrArg (x.1.steadyRead :: ·) hsteady, fun hcut => ?_⟩
    · rw [List.map_cons, List.mapM_cons, hlog, hread]
      rfl
    · obtain ⟨hcutx, hcut⟩ := List.forall_mem_cons.mp hcut
      refine List.forall_mem_cons.mpr ⟨?_, hts hcut⟩
      rw [hcutx, x.1.read_aggregates, hl, Option.map_some] at hlog
      cases hlog
      exact ⟨rfl, rfl⟩

/-- What is not read of one client is read of none. -/
theorem sumsReadable_of_logs {logs : List (ClientRun × Cut)} {samples : List ClientSample}
    (h : (logs.map fun x => x.1.log x.2).mapM readClientLog = some samples) :
    ∀ x ∈ logs, x.1.SumsReadable := by
  induction logs generalizing samples with
  | nil => nofun
  | cons x logs ih =>
    rw [List.map_cons, List.mapM_cons] at h
    obtain ⟨s, hs, h⟩ := Option.bind_eq_some_iff.mp h
    obtain ⟨ss, hss, -⟩ := Option.bind_eq_some_iff.mp h
    refine List.forall_mem_cons.mpr ⟨ClientRun.readSeconds_isSome.mp ?_, ih hss⟩
    obtain ⟨ts, lat, hlog⟩ := x.1.read_log x.2
    rw [hlog] at hs
    obtain ⟨l, hl, -⟩ := Option.map_eq_some_iff.mp hs
    rw [hl]
    rfl

end LogParser

end HotStuffTx
