import Mathlib

/-!
# What a client logs at shutdown, and how it is read

Embeds the benchmark part of the shutdown code of `hotstuff_client.cpp` and
`LogParser._read_client_log`, over rational times. A line is the numbers it
prints, in full; a pattern `[0-9.]+` does not match a number with a minus sign.
-/

set_option linter.unusedSectionVars false

namespace HotStuffTx

/-- A line of a client's log that the patterns of the parser are about. -/
inductive LogLine
  | summary (n : Nat) (window mean p50 p95 p99 max : ℚ)
  | steady (start run warmup cooldown span : ℚ) (n : Nat) (mean p50 p95 p99 max : ℚ)
    (firstCommit lastCommit : ℚ)
  | buckets (counts : List Nat)
  | latsums (seconds : List ℚ)
  | commit (timestamp latency : ℚ)
  deriving DecidableEq

-- ---------------------------------------------------------------------------
-- The client
-- ---------------------------------------------------------------------------

/-- `run_start`, the time of shutdown, the measurement options and `elapsed`: the
time and the latency of each recorded commit. -/
structure ClientRun where
  runStart : ℚ
  runEnd : ℚ
  measWarmup : ℚ
  measCooldown : ℚ
  elapsed : List (ℚ × ℚ)
  deriving DecidableEq

/-- What `nth_element` leaves at position `q * (lat.size() - 1)`; 0 of nothing. -/
def pct (lat : List ℚ) (q : ℚ) : ℚ :=
  (lat.insertionSort (· ≤ ·)).getD ⌊q * ((lat.length : ℚ) - 1)⌋.toNat 0

/-- `*std::max_element`; 0 of nothing. -/
def maxElement : List ℚ → ℚ
  | [] => 0
  | x :: xs => xs.foldl max x

namespace ClientRun

variable (c : ClientRun)

def run : ℚ := c.runEnd - c.runStart

/-- The time of a commit, from the start of the run. -/
def off (e : ℚ × ℚ) : ℚ := e.1 - c.runStart

def latencies : List ℚ := c.elapsed.map Prod.snd

/-- From the first commit to the last. -/
def window : ℚ := (c.elapsed.getLast?.elim 0 Prod.fst) - (c.elapsed.head?.elim 0 Prod.fst)

/-- The summary of a client that recorded something. -/
def summaryLine : List LogLine :=
  if c.elapsed = [] then []
  else [.summary c.elapsed.length c.window (c.latencies.sum / c.elapsed.length)
    (pct c.latencies (1 / 2)) (pct c.latencies (95 / 100)) (pct c.latencies (99 / 100))
    (maxElement c.latencies)]

/-- `hi` of the steady window. -/
def measEnd : ℚ := c.run - c.measCooldown

def span : ℚ := if c.measEnd > c.measWarmup then c.measEnd - c.measWarmup else 0

/-- The latencies of the commits in the steady window. -/
def windowLatencies : List ℚ :=
  (c.elapsed.filter fun e => c.off e ≥ c.measWarmup ∧ c.off e ≤ c.measEnd).map Prod.snd

/-- `first_commit` is set until it is not negative. -/
def firstCommit : ℚ := c.elapsed.foldl (fun first e => if first < 0 then c.off e else first) (-1)

def lastCommit : ℚ := c.elapsed.foldl (fun _ e => c.off e) (-1)

def steadyLine : LogLine :=
  let wl := c.windowLatencies
  .steady c.runStart c.run c.measWarmup c.measCooldown c.span wl.length
    (if wl = [] then 0 else wl.sum / wl.length)
    (pct wl (1 / 2)) (pct wl (95 / 100)) (pct wl (99 / 100)) (maxElement wl)
    c.firstCommit c.lastCommit

def nbuckets : Nat := if c.run > 0 then ⌊c.run⌋.toNat + 1 else 1

/-- The commit is counted in the histogram. -/
def Bucketed (e : ℚ × ℚ) : Prop := 0 ≤ c.off e ∧ ⌊c.off e⌋.toNat < c.nbuckets

instance (e : ℚ × ℚ) : Decidable (c.Bucketed e) := by
  unfold Bucketed
  infer_instance

/-- Adds `f e` to the second of each commit. -/
def perSecond {α : Type} [Zero α] [Add α] (f : ℚ × ℚ → α) : List α :=
  c.elapsed.foldl (fun acc e => if c.Bucketed e then acc.modify ⌊c.off e⌋.toNat (· + f e) else acc)
    (List.replicate c.nbuckets 0)

def buckets : List Nat := c.perSecond fun _ => 1

def latsums : List ℚ := c.perSecond Prod.snd

/-- What is flushed before the records. -/
def aggregates : List LogLine :=
  c.summaryLine ++ [c.steadyLine, .buckets c.buckets, .latsums c.latsums]

def dump : List LogLine := c.elapsed.map fun e => .commit e.1 e.2

end ClientRun

/-- Where the dump ends: after `whole` records and, where enough of the next one
is left to look like a record, with the latency it then shows. -/
structure Cut where
  whole : Nat
  torn : Option ℚ
  deriving DecidableEq

/-- The client's log, its dump cut. -/
def ClientRun.log (c : ClientRun) (cut : Cut) : List LogLine :=
  c.aggregates ++ (c.dump.take cut.whole ++
    match cut.torn, c.elapsed[cut.whole]? with
    | some latency, some e => [.commit e.1 latency]
    | _, _ => [])

-- ---------------------------------------------------------------------------
-- The parser
-- ---------------------------------------------------------------------------

structure Summary where
  n : Nat
  window : ℚ
  mean : ℚ
  p50 : ℚ
  p95 : ℚ
  p99 : ℚ
  max : ℚ
  deriving DecidableEq

/-- The groups of `_RE_STEADY`, with the two lists `_read_client_log` adds. -/
structure Steady where
  start : ℚ
  run : ℚ
  warmup : ℚ
  cooldown : ℚ
  span : ℚ
  n : Nat
  mean : ℚ
  p50 : ℚ
  p95 : ℚ
  p99 : ℚ
  max : ℚ
  firstCommit : ℚ
  lastCommit : ℚ
  buckets : List Nat
  latsums : List ℚ
  deriving DecidableEq

/-- What is read of one client. -/
structure ClientSample where
  timestamps : List ℚ
  latencies : List ℚ
  summary : Option Summary
  steady : Option Steady
  deriving DecidableEq

/-- The locals of `_read_client_log`. -/
structure Reading where
  timestamps : List ℚ
  latencies : List ℚ
  summary : Option Summary
  steady : Option Steady
  buckets : Option (List Nat)
  latsums : Option (List ℚ)
  deriving DecidableEq

/-- Every number matches `[0-9.]+`. -/
def Unsigned (xs : List ℚ) : Prop := ∀ x ∈ xs, 0 ≤ x

instance (xs : List ℚ) : Decidable (Unsigned xs) := by
  unfold Unsigned
  infer_instance

/-- `_RE_LATSUMS` and `float` of the pieces. The pattern ends before a minus sign:
it does not match at all where the first number has one, and a later one leaves an
empty last piece, which `float` raises on (the outer `none`). -/
def readSeconds : List ℚ → Option (Option (List ℚ))
  | [] => some none
  | x :: xs => if x < 0 then some none else if Unsigned xs then some (some (x :: xs)) else none

namespace Reading

def empty : Reading := ⟨[], [], none, none, none, none⟩

/-- One round of the loop over the lines; `none` is an exception. -/
def readLine (s : Reading) : LogLine → Option Reading
  | .steady start run warmup cooldown span n mean p50 p95 p99 max firstCommit lastCommit =>
    if s.steady = none ∧ Unsigned [start, run, warmup, cooldown, span, mean, p50, p95, p99, max] then
      some { s with
        steady := some ⟨start, run, warmup, cooldown, span, n, mean, p50, p95, p99, max,
          firstCommit, lastCommit, [], []⟩ }
    else some s
  | .buckets counts => if s.buckets = none then some { s with buckets := some counts } else some s
  | .latsums seconds =>
    if s.latsums = none then (readSeconds seconds).map fun l => { s with latsums := l } else some s
  | .summary n window mean p50 p95 p99 max =>
    if s.summary = none ∧ Unsigned [window, mean, p50, p95, p99, max] then
      some { s with summary := some ⟨n, window, mean, p50, p95, p99, max⟩ }
    else some s
  | .commit timestamp latency =>
    if 0 ≤ latency then
      some { s with
        timestamps := s.timestamps ++ [timestamp]
        latencies := s.latencies ++ [latency] }
    else some s

/-- The end of `_read_client_log`. -/
def finish (s : Reading) : ClientSample where
  timestamps := s.timestamps.insertionSort (· ≤ ·)
  latencies := s.latencies.insertionSort (· ≤ ·)
  summary := s.summary
  steady := s.steady.map fun x =>
    { x with buckets := s.buckets.getD [], latsums := s.latsums.getD [] }

end Reading

/-- `LogParser._read_client_log`. -/
def readClientLog (lines : List LogLine) : Option ClientSample :=
  (lines.foldlM Reading.readLine .empty).map Reading.finish

end HotStuffTx
