import HotStuffTx.ClientLog
import HotStuffTx.Lib.LongestRun

/-!
# The reported aggregates

Embeds `LogParser.result_dict` and `LogParser._steady` of `benchmark/logs.py`,
over rational numbers, on what `_read_client_log` returned for each client.
-/

set_option linter.unusedSectionVars false

namespace HotStuffTx

/-- `round(x, k)`, halves to even. -/
def pyRound (x : ℚ) (k : Nat) : ℚ :=
  let y := x * 10 ^ k
  let d := y - ⌊y⌋
  (if d < 1 / 2 ∨ (d = 1 / 2 ∧ ⌊y⌋ % 2 = 0) then (⌊y⌋ : ℚ) else ⌊y⌋ + 1) / 10 ^ k

/-- `int(x)`. -/
def pyInt (x : ℚ) : ℤ := if 0 ≤ x then ⌊x⌋ else ⌈x⌉

/-- `max` of values that may be none. -/
def maxOf : List ℚ → Option ℚ
  | [] => none
  | x :: xs => some (xs.foldl max x)

def minOf : List ℚ → Option ℚ
  | [] => none
  | x :: xs => some (xs.foldl min x)

structure SteadyDict where
  tpsSteady : ℚ
  latencyMsMeanSteady : ℚ
  nCommittedSteady : Nat
  steadySpanS : ℚ
  clientsCommitting : Nat
  lastCommitS : ℚ
  longestZeroCommitS : Nat
  stalled : Bool
  /-- `latency_ms_p50_steady` and `latency_ms_p99_steady`. -/
  percentilesSteady : Option (ℚ × ℚ)
  latencyMsP99SteadyWorstClient : Option ℚ
  deriving DecidableEq

structure ResultDict where
  steady : Option SteadyDict
  tps : ℚ
  latencyMsMean : ℚ
  latencyMsP50 : ℚ
  latencyMsP95 : ℚ
  latencyMsP99 : ℚ
  durationS : ℚ
  nCommitted : Nat
  nRecordsDumped : Nat
  rawDumpTruncated : Bool
  nClients : Nat
  nReplicasBooted : Nat
  deriving DecidableEq

/-- `STALL_ZERO_SECONDS`. -/
def stallZeroSeconds : Nat := 5

/-- `LogParser`, less its metadata. -/
structure LogParser where
  clientSamples : List ClientSample
  replicaBooted : Nat
  deriving DecidableEq

namespace LogParser

-- ---------------------------------------------------------------------------
-- The steady window
-- ---------------------------------------------------------------------------

/-- `total.get(sec, 0)`, when every bucket of every client has been added at its
second of the common clock. -/
def total (t0 : ℚ) (st : List Steady) (sec : ℤ) : Nat :=
  (st.map fun x => (x.buckets.zipIdx.map fun (c, i) =>
    if pyInt (x.start - t0 + (i : ℚ)) = sec then c else 0).sum).sum

/-- `range(lo, hi)`. -/
def pyRange (lo hi : ℤ) : List ℤ := (List.range (hi - lo).toNat).map fun i : Nat => lo + (i : ℤ)

/-- The sums and extrema over the clients of `_steady`, of at least one client. -/
def steadyOf (x₀ : Steady) (xs : List Steady) : SteadyDict :=
  let st := x₀ :: xs
  let n := (st.map (·.n)).sum
  let tps := (st.map fun x => if x.span > 0 then (x.n : ℚ) / x.span else 0).sum
  let meanMs := if n ≠ 0 then (st.map fun x => x.mean * (x.n : ℚ)).sum / n * 1000 else 0
  let t0 := (xs.map (·.start)).foldl min x₀.start
  let lo := (xs.map fun x => x.start + x.warmup).foldl max (x₀.start + x₀.warmup) - t0
  let hi := (xs.map fun x => x.start + x.run - x.cooldown).foldl min
    (x₀.start + x₀.run - x₀.cooldown) - t0
  let longest := LongestRun.longest (fun sec => total t0 st sec = 0) (pyRange ⌈lo⌉ ⌊hi⌋)
  let commits := st.filter fun x => x.firstCommit ≥ 0
  { tpsSteady := pyRound tps 2
    latencyMsMeanSteady := pyRound meanMs 3
    nCommittedSteady := n
    steadySpanS := pyRound ((xs.map (·.span)).foldl min x₀.span) 2
    clientsCommitting := commits.length
    lastCommitS := pyRound ((maxOf (commits.map (·.lastCommit))).getD (-1)) 2
    longestZeroCommitS := longest
    stalled := longest ≥ stallZeroSeconds
    percentilesSteady :=
      if xs = [] then some (pyRound (x₀.p50 * 1000) 3, pyRound (x₀.p99 * 1000) 3) else none
    latencyMsP99SteadyWorstClient :=
      if xs = [] then none
      else some (pyRound ((xs.map (·.p99)).foldl max x₀.p99 * 1000) 3) }

/-- `_steady`; `none` is the empty dictionary. -/
def steady (p : LogParser) : Option SteadyDict :=
  match p.clientSamples.mapM (·.steady) with
  | some (x₀ :: xs) => some (steadyOf x₀ xs)
  | _ => none

-- ---------------------------------------------------------------------------
-- The result
-- ---------------------------------------------------------------------------

/-- `LogParser.process` on the clients' logs, then `result_dict`; `none` is an
exception while a log is read. -/
def ofLogs (logs : List (List LogLine)) (replicaBooted : Nat) : Option LogParser :=
  (logs.mapM readClientLog).map fun samples => ⟨samples, replicaBooted⟩

end LogParser

end HotStuffTx
