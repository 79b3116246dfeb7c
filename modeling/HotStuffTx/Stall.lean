import HotStuffTx.Report

/-!
# Stalls

A commit is counted in the second of its client's own clock and that second is
put on the common clock, so it appears there at most two seconds before it
happened and never after. What the loop of `_steady` finds on the common clock
is compared with the commits themselves.
-/

set_option linter.unusedSectionVars false

namespace HotStuffTx

/-- From `a` to `b` every client measures. -/
def Measured (clients : List ClientRun) (a b : ℚ) : Prop :=
  ∀ c ∈ clients, c.runStart + c.measWarmup ≤ a ∧ b ≤ c.runEnd - c.measCooldown

-- ---------------------------------------------------------------------------
-- The histogram
-- ---------------------------------------------------------------------------

namespace ClientRun

variable {c : ClientRun}

theorem getElem?_foldl_buckets (es : List (ℚ × ℚ)) (acc : List Nat) (k : Nat) :
    (es.foldl (fun acc e => if c.Bucketed e then acc.modify ⌊c.off e⌋.toNat (· + 1) else acc)
      acc)[k]? =
    acc[k]?.map (· + es.countP fun e => c.Bucketed e ∧ ⌊c.off e⌋.toNat = k) := by
  induction es generalizing acc with
  | nil => simp
  | cons e es ih =>
    rw [List.foldl_cons, ih, List.countP_cons]
    by_cases he : c.Bucketed e
    · by_cases hk : ⌊c.off e⌋.toNat = k
      · rw [if_pos he, hk, List.getElem?_modify_eq]
        cases acc[k]? with
        | none => rfl
        | some x =>
          simp [he, hk]
          omega
      · rw [if_pos he, List.getElem?_modify_ne _ _ hk]
        simp [hk]
    · rw [if_neg he]
      simp [he]

/-- The number of commits in the `k`-th second of the run. -/
theorem getElem?_buckets (c : ClientRun) (k : Nat) : c.buckets[k]? =
    if k < c.nbuckets then
      some (c.elapsed.countP fun e => c.Bucketed e ∧ ⌊c.off e⌋.toNat = k) else none := by
  rw [buckets, perSecond, getElem?_foldl_buckets, List.getElem?_replicate]
  split <;> simp

end ClientRun

namespace LogParser

theorem total_eq_zero_iff {t0 : ℚ} {st : List Steady} {sec : ℤ} : total t0 st sec = 0 ↔
    ∀ x ∈ st, ∀ (k n : Nat), x.buckets[k]? = some n → pyInt (x.start - t0 + (k : ℚ)) = sec → n = 0 := by
  rw [total, List.sum_eq_zero_iff, List.forall_mem_map]
  refine forall₂_congr fun x _ => ?_
  rw [List.sum_eq_zero_iff, List.forall_mem_map]
  constructor
  · intro h k n hk hsec
    exact (if_pos hsec).symm.trans (h (n, k) (List.mem_zipIdx_iff_getElem?.mpr hk))
  · rintro h ⟨n, k⟩ hn
    by_cases hsec : pyInt (x.start - t0 + (k : ℚ)) = sec
    · exact (if_pos hsec).trans (h k n (List.mem_zipIdx_iff_getElem?.mp hn) hsec)
    · exact if_neg hsec

theorem foldl_max_le {x a : ℚ} {xs : List ℚ} :
    xs.foldl max x ≤ a ↔ ∀ y ∈ x :: xs, y ≤ a := by
  induction xs generalizing x with
  | nil => simp
  | cons y xs ih =>
    rw [List.foldl_cons, ih]
    simp [and_assoc]

theorem le_foldl_min {x a : ℚ} {xs : List ℚ} :
    a ≤ xs.foldl min x ↔ ∀ y ∈ x :: xs, a ≤ y := by
  induction xs generalizing x with
  | nil => simp
  | cons y xs ih =>
    rw [List.foldl_cons, ih]
    simp [and_assoc]

theorem getElem?_pyRange {lo hi : ℤ} {i : Nat} (h : i < (hi - lo).toNat) :
    (pyRange lo hi)[i]? = some (lo + (i : ℤ)) := by
  rw [pyRange, List.getElem?_map, List.getElem?_range h, Option.map_some]

theorem length_pyRange (lo hi : ℤ) : (pyRange lo hi).length = (hi - lo).toNat := by
  rw [pyRange, List.length_map, List.length_range]

end LogParser

-- ---------------------------------------------------------------------------
-- One commit on the common clock
-- ---------------------------------------------------------------------------

theorem pyInt_of_nonneg {x : ℚ} (h : 0 ≤ x) : pyInt x = ⌊x⌋ := if_pos h

namespace ClientRun

variable {c : ClientRun} {e : ℚ × ℚ}

theorem steady_of_read (h : c.steadyRead = some x) : Unsigned c.steadyNumbers ∧
    x.start = c.runStart ∧ x.run = c.run ∧ x.warmup = c.measWarmup ∧ x.cooldown = c.measCooldown ∧
    x.buckets = c.buckets := by
  rw [steadyRead] at h
  split at h
  · rename_i hu
    cases h
    exact ⟨hu, rfl, rfl, rfl, rfl, rfl⟩
  · cases h

/-- A commit while its client measures is counted. -/
theorem bucketed_of_measured (hu : Unsigned c.steadyNumbers)
    (hlo : c.runStart + c.measWarmup ≤ e.1) (hhi : e.1 < c.runEnd - c.measCooldown) :
    c.Bucketed e := by
  have hwarmup : 0 ≤ c.measWarmup := hu _ (by simp [steadyNumbers])
  have hcooldown : 0 ≤ c.measCooldown := hu _ (by simp [steadyNumbers])
  have h0 : 0 ≤ c.off e := by
    rw [off]
    linarith
  have hlt : c.off e < c.run := by
    rw [off, run]
    linarith
  refine ⟨h0, ?_⟩
  rw [nbuckets, if_pos (h0.trans_lt hlt)]
  have hle : ⌊c.off e⌋ ≤ ⌊c.run⌋ := Int.floor_le_floor hlt.le
  have := Int.floor_nonneg.mpr h0
  omega

theorem buckets_pos (he : e ∈ c.elapsed) (hb : c.Bucketed e) :
    ∃ n, c.buckets[⌊c.off e⌋.toNat]? = some n ∧ n ≠ 0 := by
  refine ⟨_, by rw [getElem?_buckets, if_pos hb.2], ?_⟩
  refine (List.countP_pos_iff.mpr ⟨e, he, ?_⟩).ne'
  exact decide_eq_true ⟨hb, rfl⟩

theorem exists_of_buckets {k n : Nat} (h : c.buckets[k]? = some n) (hn : n ≠ 0) :
    ∃ e ∈ c.elapsed, (k : ℚ) ≤ c.off e ∧ c.off e < k + 1 := by
  rw [getElem?_buckets] at h
  split at h
  · cases h
    obtain ⟨e, he, hp⟩ := List.countP_pos_iff.mp (Nat.pos_of_ne_zero hn)
    obtain ⟨hb, hk⟩ := of_decide_eq_true hp
    have hfloor : ⌊c.off e⌋ = (k : ℤ) := by
      have := Int.floor_nonneg.mpr hb.1
      omega
    obtain ⟨hle, hlt⟩ := Int.floor_eq_iff.mp hfloor
    exact ⟨e, he, by exact_mod_cast hle, by exact_mod_cast hlt⟩
  · cases h

end ClientRun

-- ---------------------------------------------------------------------------
-- The flag
-- ---------------------------------------------------------------------------

namespace LogParser

variable {clients : List ClientRun} {x₀ x : Steady} {xs : List Steady}

theorem exists_steady (h : clients.map (·.steadyRead) = (x₀ :: xs).map some) (hc : c ∈ clients) :
    ∃ x ∈ x₀ :: xs, c.steadyRead = some x := by
  obtain ⟨x, hx, hcx⟩ := List.mem_map.mp (h ▸ List.mem_map_of_mem hc)
  exact ⟨x, hx, hcx.symm⟩

theorem exists_client (h : clients.map (·.steadyRead) = (x₀ :: xs).map some)
    (hx : x ∈ x₀ :: xs) : ∃ c ∈ clients, c.steadyRead = some x := by
  obtain ⟨c, hc, hcx⟩ := List.mem_map.mp (h.symm ▸ List.mem_map_of_mem (f := some) hx)
  exact ⟨c, hc, hcx⟩

theorem map_of_mapM {f : α → Option β} {l : List α} {l' : List β} (h : l.mapM f = some l') :
    l.map f = l'.map some := by
  induction l generalizing l' with
  | nil =>
    cases h
    rfl
  | cons a l ih =>
    rw [List.mapM_cons] at h
    obtain ⟨b, hb, h⟩ := Option.bind_eq_some_iff.mp h
    obtain ⟨bs, hbs, h⟩ := Option.bind_eq_some_iff.mp h
    cases h
    rw [List.map_cons, List.map_cons, hb, ih hbs]

/-- `t0`, `lo` and `hi` of `_steady`. -/
def clockStart (x₀ : Steady) (xs : List Steady) : ℚ := (xs.map (·.start)).foldl min x₀.start

def windowStart (x₀ : Steady) (xs : List Steady) : ℚ :=
  (xs.map fun x => x.start + x.warmup).foldl max (x₀.start + x₀.warmup) - clockStart x₀ xs

def windowEnd (x₀ : Steady) (xs : List Steady) : ℚ :=
  (xs.map fun x => x.start + x.run - x.cooldown).foldl min (x₀.start + x₀.run - x₀.cooldown) -
    clockStart x₀ xs

theorem clockStart_le (hx : x ∈ x₀ :: xs) : clockStart x₀ xs ≤ x.start :=
  le_foldl_min.mp le_rfl _ (List.mem_map_of_mem (f := Steady.start) hx)

theorem windowStart_le_iff {a : ℚ} : windowStart x₀ xs ≤ a - clockStart x₀ xs ↔
    ∀ x ∈ x₀ :: xs, x.start + x.warmup ≤ a := by
  rw [windowStart, sub_le_sub_iff_right, foldl_max_le]
  exact List.forall_mem_map (l := x₀ :: xs) (f := fun x : Steady => x.start + x.warmup)

theorem le_windowEnd_iff {b : ℚ} : b - clockStart x₀ xs ≤ windowEnd x₀ xs ↔
    ∀ x ∈ x₀ :: xs, b ≤ x.start + x.run - x.cooldown := by
  rw [windowEnd, sub_le_sub_iff_right, le_foldl_min]
  exact List.forall_mem_map (l := x₀ :: xs) (f := fun x : Steady => x.start + x.run - x.cooldown)

/-- Five seconds of the common clock, all within the window, have no commits. -/
theorem stalled_iff : (steadyOf x₀ xs).stalled = true ↔
    ∃ s : ℤ, windowStart x₀ xs ≤ s ∧ s + 5 ≤ windowEnd x₀ xs ∧
      ∀ i : ℤ, 0 ≤ i → i < 5 → total (clockStart x₀ xs) (x₀ :: xs) (s + i) = 0 := by
  change decide (stallZeroSeconds ≤ LongestRun.longest
    (fun sec => total (clockStart x₀ xs) (x₀ :: xs) sec = 0)
    (pyRange ⌈windowStart x₀ xs⌉ ⌊windowEnd x₀ xs⌋)) = true ↔ _
  rw [decide_eq_true_iff, stallZeroSeconds, LongestRun.le_longest_iff (by decide)]
  constructor
  · rintro ⟨j, hlen, hall⟩
    rw [length_pyRange] at hlen
    refine ⟨⌈windowStart x₀ xs⌉ + j, ?_, ?_, fun i h0 h5 => ?_⟩
    · have := Int.le_ceil (windowStart x₀ xs)
      push_cast
      have : (0 : ℚ) ≤ j := Nat.cast_nonneg j
      linarith
    · have hle : ⌈windowStart x₀ xs⌉ + j + 5 ≤ ⌊windowEnd x₀ xs⌋ := by omega
      exact_mod_cast Int.le_floor.mp hle
    · obtain ⟨sec, hsec, hz⟩ := hall i.toNat (by omega)
      rw [getElem?_pyRange (by omega)] at hsec
      cases hsec
      have hz := of_decide_eq_true hz
      rwa [show ⌈windowStart x₀ xs⌉ + ((j + i.toNat : Nat) : ℤ) = ⌈windowStart x₀ xs⌉ + j + i by
        omega] at hz
  · rintro ⟨s, hlo, hhi, hall⟩
    have hlo := Int.ceil_le.mpr hlo
    have hhi : s + 5 ≤ ⌊windowEnd x₀ xs⌋ := Int.le_floor.mpr (by exact_mod_cast hhi)
    refine ⟨(s - ⌈windowStart x₀ xs⌉).toNat, ?_, fun i hi => ?_⟩
    · rw [length_pyRange]
      omega
    · refine ⟨_, getElem?_pyRange (by omega), decide_eq_true ?_⟩
      rw [show ⌈windowStart x₀ xs⌉ + (((s - ⌈windowStart x₀ xs⌉).toNat + i : Nat) : ℤ) = s + i by
        omega]
      exact hall i (by omega) (by omega)

theorem steady_eq_some {p : LogParser} (h : p.steady = some d) :
    ∃ x₀ xs, p.clientSamples.map (·.steady) = (x₀ :: xs).map some ∧ steadyOf x₀ xs = d := by
  rw [steady] at h
  split at h
  · rename_i x₀ xs hm
    exact ⟨x₀, xs, map_of_mapM hm, Option.some.inj h⟩
  · cases h

/-- The window of the code is the one in which every client measures. -/
theorem measured_of_window (h : clients.map (·.steadyRead) = (x₀ :: xs).map some) {s t : ℚ}
    (hlo : windowStart x₀ xs ≤ s) (hhi : t ≤ windowEnd x₀ xs) :
    Measured clients (clockStart x₀ xs + s) (clockStart x₀ xs + t) := by
  intro c hc
  obtain ⟨x, hx, hread⟩ := exists_steady h hc
  obtain ⟨-, hstart, hrun, hwarmup, hcooldown, -⟩ := ClientRun.steady_of_read hread
  have hlo := (windowStart_le_iff (a := clockStart x₀ xs + s)).mp (by linarith) x hx
  have hhi := (le_windowEnd_iff (b := clockStart x₀ xs + t)).mp (by linarith) x hx
  rw [hstart, hwarmup] at hlo
  rw [hstart, hrun, hcooldown, ClientRun.run] at hhi
  exact ⟨hlo, by linarith⟩

theorem window_of_measured (h : clients.map (·.steadyRead) = (x₀ :: xs).map some)
    (hm : Measured clients a b) :
    windowStart x₀ xs ≤ a - clockStart x₀ xs ∧ b - clockStart x₀ xs ≤ windowEnd x₀ xs := by
  refine ⟨windowStart_le_iff.mpr fun x hx => ?_, le_windowEnd_iff.mpr fun x hx => ?_⟩
  · obtain ⟨c, hc, hread⟩ := exists_client h hx
    obtain ⟨-, hstart, -, hwarmup, -⟩ := ClientRun.steady_of_read hread
    rw [hstart, hwarmup]
    exact (hm c hc).1
  · obtain ⟨c, hc, hread⟩ := exists_client h hx
    obtain ⟨-, hstart, hrun, -, hcooldown, -⟩ := ClientRun.steady_of_read hread
    have := (hm c hc).2
    rw [hstart, hrun, hcooldown, ClientRun.run]
    linarith

/-- A second without commits on the common clock has none that happened later than
it begins and no later than the next one ends, as far as they are counted. -/
theorem quiet_of_total (h : clients.map (·.steadyRead) = (x₀ :: xs).map some) {s : ℤ}
    (hlo : windowStart x₀ xs ≤ s) (hhi : s + 5 ≤ windowEnd x₀ xs)
    (hz : ∀ i : ℤ, 0 ≤ i → i < 5 → total (clockStart x₀ xs) (x₀ :: xs) (s + i) = 0) :
    ∀ c ∈ clients, ∀ e ∈ c.elapsed,
      ¬ (clockStart x₀ xs + s + 1 ≤ e.1 ∧ e.1 < clockStart x₀ xs + s + 5) := by
  rintro c hc e he ⟨hle, hlt⟩
  obtain ⟨x, hx, hread⟩ := exists_steady h hc
  obtain ⟨hu, hstart, -, -, -, hbuckets⟩ := ClientRun.steady_of_read hread
  have hclock := clockStart_le hx
  obtain ⟨hlo, hhi⟩ := measured_of_window h hlo hhi c hc
  have hb : c.Bucketed e := ClientRun.bucketed_of_measured hu (by linarith) (by linarith)
  obtain ⟨n, hn, hn0⟩ := ClientRun.buckets_pos he hb
  have hfloor : ((⌊c.off e⌋.toNat : Nat) : ℚ) = ⌊c.off e⌋ := by
    have : ((⌊c.off e⌋.toNat : Nat) : ℤ) = ⌊c.off e⌋ := Int.toNat_of_nonneg (Int.floor_nonneg.mpr hb.1)
    exact_mod_cast this
  have hle' := Int.floor_le (c.off e)
  have hlt' := Int.lt_floor_add_one (c.off e)
  have hoff : c.off e = e.1 - c.runStart := rfl
  -- the second in which the commit is counted
  have h0 : 0 ≤ x.start - clockStart x₀ xs + ((⌊c.off e⌋.toNat : Nat) : ℚ) := by
    have : (0 : ℚ) ≤ (⌊c.off e⌋.toNat : Nat) := Nat.cast_nonneg _
    rw [hstart]
    linarith
  have hsec := pyInt_of_nonneg h0
  rw [hstart, hfloor] at hsec
  have hge : s ≤ ⌊c.runStart - clockStart x₀ xs + ⌊c.off e⌋⌋ := Int.le_floor.mpr (by linarith)
  have hlt : ⌊c.runStart - clockStart x₀ xs + ⌊c.off e⌋⌋ < s + 5 :=
    Int.floor_lt.mpr (by push_cast; linarith)
  have hz := hz (⌊c.runStart - clockStart x₀ xs + ⌊c.off e⌋⌋ - s) (by omega) (by omega)
  rw [add_sub_cancel] at hz
  refine hn0 (total_eq_zero_iff.mp hz x hx _ n (by rw [hbuckets]; exact hn) ?_)
  rw [hstart, hfloor, hsec]

/-- What is counted in a second of the common clock happened in it or the next. -/
theorem total_of_quiet (h : clients.map (·.steadyRead) = (x₀ :: xs).map some) {sec : ℤ}
    (hq : ∀ c ∈ clients, ∀ e ∈ c.elapsed,
      ¬ (clockStart x₀ xs + sec ≤ e.1 ∧ e.1 < clockStart x₀ xs + sec + 2)) :
    total (clockStart x₀ xs) (x₀ :: xs) sec = 0 := by
  refine total_eq_zero_iff.mpr fun x hx k n hk hsec => ?_
  by_contra hn
  obtain ⟨c, hc, hread⟩ := exists_client h hx
  obtain ⟨-, hstart, -, -, -, hbuckets⟩ := ClientRun.steady_of_read hread
  rw [hbuckets] at hk
  obtain ⟨e, he, hle, hlt⟩ := ClientRun.exists_of_buckets hk hn
  have hclock := clockStart_le hx
  rw [pyInt_of_nonneg (add_nonneg (sub_nonneg.mpr hclock) (Nat.cast_nonneg k))] at hsec
  obtain ⟨hfl, hfl'⟩ := Int.floor_eq_iff.mp hsec
  have hoff : c.off e = e.1 - c.runStart := rfl
  rw [hstart] at hfl hfl'
  exact hq c hc e he ⟨by linarith, by linarith⟩

end LogParser

/-- A stall is reported only where all clients measure for four seconds without a
commit, and wherever they do so for seven. -/
theorem stall_detection (logs : List (ClientRun × Cut)) (replicaBooted : Nat) (p : LogParser)
    (d : SteadyDict)
    (hp : LogParser.ofLogs (logs.map fun x => x.1.log x.2) replicaBooted = some p)
    (hd : p.steady = some d) :
    (d.stalled = true → ∃ a b : ℚ, Measured (logs.map Prod.fst) a b ∧
      a + (stallZeroSeconds - 1) ≤ b ∧
      ∀ c ∈ logs.map Prod.fst, ∀ e ∈ c.elapsed, ¬ (a ≤ e.1 ∧ e.1 < b)) ∧
    ((∃ a b : ℚ, Measured (logs.map Prod.fst) a b ∧ a + (stallZeroSeconds + 2) ≤ b ∧
      ∀ c ∈ logs.map Prod.fst, ∀ e ∈ c.elapsed, ¬ (a < e.1 ∧ e.1 < b)) → d.stalled = true) := by
  obtain ⟨samples, hsamples, rfl⟩ := Option.map_eq_some_iff.mp hp
  obtain ⟨samples', hsamples', -, hsteady, -⟩ := LogParser.samples_of_logs logs
    (LogParser.sumsReadable_of_logs hsamples)
  obtain rfl : samples = samples' := Option.some.inj (hsamples.symm.trans hsamples')
  obtain ⟨x₀, xs, hmapM, rfl⟩ := LogParser.steady_eq_some hd
  have hread : (logs.map Prod.fst).map (·.steadyRead) = (x₀ :: xs).map some := by
    rw [List.map_map, ← hmapM, hsteady]
    rfl
  have hstall : (stallZeroSeconds : ℚ) = 5 := rfl
  rw [LogParser.stalled_iff, hstall]
  constructor
  · rintro ⟨s, hlo, hhi, hz⟩
    refine ⟨_, _, LogParser.measured_of_window hread (s := s + 1) (t := s + 5) (by linarith)
      (by linarith), by linarith, ?_⟩
    have hq := LogParser.quiet_of_total hread hlo hhi hz
    simpa only [← add_assoc] using hq
  · rintro ⟨a, b, hm, hab, hq⟩
    obtain ⟨hlo, hhi⟩ := LogParser.window_of_measured hread hm
    have hfl := Int.floor_le (a - LogParser.clockStart x₀ xs)
    have hfl' := Int.lt_floor_add_one (a - LogParser.clockStart x₀ xs)
    refine ⟨⌊a - LogParser.clockStart x₀ xs⌋ + 1, ?_, ?_, fun i h0 h5 => ?_⟩
    · push_cast
      linarith
    · push_cast
      linarith
    · refine LogParser.total_of_quiet hread fun c hc e he => ?_
      have h0 : (0 : ℚ) ≤ i := by exact_mod_cast h0
      have h5 : (i : ℚ) ≤ 4 := by exact_mod_cast Int.le_of_lt_add_one h5
      push_cast
      rintro ⟨hle, hlt⟩
      exact hq c hc e he ⟨by linarith, by linarith⟩

/-- Two clients, the second half a second behind, commit nothing from 5 to 12. -/
def pausedLogs : List (ClientRun × Cut) :=
  [(⟨100, 120, 1, 1, [(103, 1), (105, 1), (112, 1)]⟩, ⟨3, none⟩),
    (⟨201 / 2, 241 / 2, 1, 1, [(209 / 2, 1), (113, 1)]⟩, ⟨0, none⟩)]

theorem stall_detection_paused : ∃ p d,
    LogParser.ofLogs (pausedLogs.map fun x => x.1.log x.2) 4 = some p ∧ p.steady = some d ∧
      d.stalled = true ∧ d.longestZeroCommitS = 6 ∧
      ∃ a b : ℚ, Measured (pausedLogs.map Prod.fst) a b ∧ a + (stallZeroSeconds - 1) ≤ b ∧
        ∀ c ∈ pausedLogs.map Prod.fst, ∀ e ∈ c.elapsed, ¬ (a ≤ e.1 ∧ e.1 < b) := by
  have hlongest : ((LogParser.ofLogs (pausedLogs.map fun x => x.1.log x.2) 4).bind (·.steady)).map
      (·.longestZeroCommitS) = some 6 := by decide +kernel
  obtain ⟨d, hbind, h6⟩ := Option.map_eq_some_iff.mp hlongest
  obtain ⟨p, hp, hd⟩ := Option.bind_eq_some_iff.mp hbind
  obtain ⟨hfound, hreported⟩ := stall_detection pausedLogs 4 p d hp hd
  have hs : d.stalled = true := hreported ⟨105, 112, by unfold Measured; decide +kernel,
    by norm_num [stallZeroSeconds], by decide +kernel⟩
  exact ⟨p, d, hp, hd, hs, h6, hfound hs⟩

end HotStuffTx
