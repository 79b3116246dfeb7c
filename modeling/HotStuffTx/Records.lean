import Mathlib

/-!
# Pruning the client logs

`_prune_client_logs` of the log-parsing daemon: a run directory is a list of
named files, every call into the operating system may fail, and the client logs
are replaced by their aggregate lines in `summaries.txt`.
-/

namespace HotStuffTx

abbrev Text := List Char
abbrev Bytes := List UInt8

/-- The text encoding of the platform. Reading replaces what does not decode;
writing fails on what does not encode. -/
structure TextEncoding where
  decode : Bytes → Text
  encode : Text → Option Bytes

/-- The files of a run directory by name. -/
structure RunDir where
  files : List (Text × Bytes)
  distinct : (files.map Prod.fst).Nodup

/-- How writing the temporary file and moving it over the old one ends. What was
written before an error stays in the temporary file. -/
inductive WriteOutcome
  | written
  | openFails
  | writeFails (part : Bytes)
  | replaceFails

/-- Which calls raise `OSError`, file by file. -/
structure IoFaults where
  read : Text → Bool
  write : WriteOutcome
  getsize : Text → Bool
  remove : Text → Bool

def summaryFile : Text := "summaries.txt".toList

def keepMarkers : List Text :=
  ["[hotstuff summary]", "[hotstuff steady]", "[hotstuff buckets]", "[hotstuff latsums]"].map
    String.toList

-- ---------------------------------------------------------------------------
-- Text
-- ---------------------------------------------------------------------------

/-- Text files are read with `\r\n` and `\r` as line ends. -/
def universalNewlines : Text → Text
  | '\r' :: '\n' :: cs => '\n' :: universalNewlines cs
  | '\r' :: cs => '\n' :: universalNewlines cs
  | c :: cs => c :: universalNewlines cs
  | [] => []

/-- The lines of a text with their line ends. -/
def splitLines : Text → List Text
  | [] => []
  | c :: cs =>
    if c = '\n' then [c] :: splitLines cs
    else
      match splitLines cs with
      | [] => [[c]]
      | line :: lines => (c :: line) :: lines

/-- `str.isspace` of one character. -/
def isSpace (c : Char) : Bool :=
  let k := c.toNat
  (0x09 ≤ k && k ≤ 0x0d) || (0x1c ≤ k && k ≤ 0x20) || k = 0x85 || k = 0xa0 || k = 0x1680 ||
    (0x2000 ≤ k && k ≤ 0x200a) || k = 0x2028 || k = 0x2029 || k = 0x202f || k = 0x205f || k = 0x3000

def rstrip (line : Text) : Text := line.rdropWhile isSpace

/-- Every entry ends its line. -/
def joinLines (lines : List Text) : Text := (lines.map (· ++ ['\n'])).flatten

-- ---------------------------------------------------------------------------
-- The directory
-- ---------------------------------------------------------------------------

namespace RunDir

def read (dir : RunDir) (name : Text) : Option Bytes := dir.files.lookup name

def remove (dir : RunDir) (name : Text) : RunDir where
  files := dir.files.filter (·.1 ≠ name)
  distinct := (List.filter_sublist.map _).nodup dir.distinct

/-- The file is created, or its content replaced. -/
def put (dir : RunDir) (name : Text) (content : Bytes) : RunDir where
  files := (name, content) :: (dir.remove name).files
  distinct := by
    refine List.nodup_cons.mpr ⟨fun h => ?_, (dir.remove name).distinct⟩
    obtain ⟨file, hfile, hname⟩ := List.mem_map.mp h
    have hne := (List.mem_filter.mp hfile).2
    simp only [ne_eq, decide_eq_true_eq] at hne
    exact hne hname

end RunDir

/-- The names matched by `client-*.log`. -/
def isClientLog (name : Text) : Bool :=
  "client-".toList.isPrefixOf name && ".log".toList.isSuffixOf (name.drop 7)

/-- `sorted(glob(..))`. -/
def clientLogs (dir : RunDir) : List Text :=
  ((dir.files.map Prod.fst).filter isClientLog).insertionSort (· ≤ ·)

variable (enc : TextEncoding) (io : IoFaults)

/-- The lines of one log that hold one of the markers. -/
def keptLines (content : Bytes) : List Text :=
  (splitLines (universalNewlines (enc.decode content))).filter fun line =>
    keepMarkers.any fun marker => marker <:+: line

/-- The entries of one log in `summaries.txt`. -/
def summaryEntries (name : Text) (content : Bytes) : List Text :=
  (keptLines enc content).map fun line => name ++ ": ".toList ++ rstrip line

/-- Reading one log: `none` for an `OSError`. -/
def readEntries (dir : RunDir) (name : Text) : Option (List Text) :=
  if io.read name then none else (dir.read name).map (summaryEntries enc name)

/-- `_atomic_write`: the temporary file is written first and then moved over the
target. `none` is the error of a text that does not encode, which is no `OSError`. -/
def atomicWrite (dir : RunDir) (path text : Text) : Option Bool × RunDir :=
  let tmp := path ++ ".tmp".toList
  match io.write, enc.encode text with
  | .openFails, _ => (some false, dir)
  | _, none => (none, dir.put tmp [])
  | .writeFails part, some _ => (some false, dir.put tmp part)
  | .replaceFails, some content => (some false, dir.put tmp content)
  | .written, some content => (some true, (dir.remove tmp).put path content)

/-- One log of the loop that deletes them: its size counts once it is known. -/
def removeLog (acc : Nat × RunDir) (name : Text) : Nat × RunDir :=
  match acc.2.read name with
  | none => acc
  | some content =>
    if io.getsize name then acc
    else if io.remove name then (acc.1 + content.length, acc.2)
    else (acc.1 + content.length, acc.2.remove name)

/-- `_prune_client_logs`: the bytes reclaimed, or `none` where another exception
than an `OSError` leaves the function. -/
def pruneClientLogs (dir : RunDir) : Option Nat × RunDir :=
  let logs := clientLogs dir
  if logs = [] then (some 0, dir)
  else
    match logs.mapM (readEntries enc io dir) with
    | none => (some 0, dir)
    | some entries =>
      if entries.flatten = [] then (some 0, dir)
      else
        match atomicWrite enc io dir summaryFile (joinLines entries.flatten) with
        | (none, dir) => (none, dir)
        | (some false, dir) => (some 0, dir)
        | (some true, dir) =>
          let (freed, dir) := logs.foldl (removeLog io) (0, dir)
          (some freed, dir)

/-- What is left of the records of one log that was there: the log itself, or
all its marked lines, of which there is one, together in `summaries.txt`. -/
def RecordsKept (dir' : RunDir) (name : Text) (content : Bytes) : Prop :=
  dir'.read name = some content ∨
    dir'.read name = none ∧ keptLines enc content ≠ [] ∧
      ∃ lines summary, dir'.read summaryFile = some summary ∧
        enc.encode (joinLines lines) = some summary ∧ summaryEntries enc name content <:+: lines

-- ---------------------------------------------------------------------------
-- Reading a changed directory
-- ---------------------------------------------------------------------------

namespace RunDir

variable (dir : RunDir)

theorem read_remove (name other : Text) :
    (dir.remove name).read other = if other = name then none else dir.read other := by
  show (dir.files.filter (·.1 ≠ name)).lookup other = _
  unfold read
  induction dir.files with
  | nil => simp
  | cons file files ih =>
    obtain ⟨k, content⟩ := file
    by_cases hk : k = name
    · rw [List.filter_cons_of_neg (by simpa using hk), ih, List.lookup_cons]
      by_cases ho : other = name
      · rw [if_pos ho, if_pos ho]
      · have hne : (other == k) = false := by simpa [hk] using ho
        rw [if_neg ho, if_neg ho, hne]
    · rw [List.filter_cons_of_pos (by simpa using hk), List.lookup_cons, List.lookup_cons, ih]
      by_cases ho : other = name
      · have hne : (other == k) = false := by simpa [ho] using Ne.symm hk
        simp only [hne, if_pos ho]
      · rw [if_neg ho, if_neg ho]

theorem read_put (name other : Text) (content : Bytes) :
    (dir.put name content).read other = if other = name then some content else dir.read other := by
  rw [read, put, List.lookup_cons]
  by_cases ho : other = name
  · simp [ho]
  · have hne : (other == name) = false := by simpa using ho
    rw [hne, if_neg ho]
    exact (dir.read_remove name other).trans (if_neg ho)

theorem read_isSome_iff (name : Text) : (dir.read name).isSome ↔ name ∈ dir.files.map Prod.fst := by
  unfold read
  induction dir.files with
  | nil => simp
  | cons file files ih =>
    rw [List.lookup_cons, List.map_cons, List.mem_cons]
    by_cases hk : name = file.1
    · simp [hk]
    · have hne : (name == file.1) = false := by simpa using hk
      rw [hne, ih, or_iff_right hk]

end RunDir

theorem mem_clientLogs {dir : RunDir} {name : Text} :
    name ∈ clientLogs dir ↔ isClientLog name = true ∧ (dir.read name).isSome := by
  rw [clientLogs, List.mem_insertionSort, List.mem_filter, dir.read_isSome_iff, and_comm]

-- ---------------------------------------------------------------------------
-- The two loops
-- ---------------------------------------------------------------------------

/-- The entries of a log that can be read. -/
def entriesOf (dir : RunDir) (name : Text) : List Text :=
  summaryEntries enc name ((dir.read name).getD [])

/-- One log that cannot be read ends the function, else all entries are collected. -/
theorem mapM_readEntries {dir : RunDir} {logs : List Text}
    (hlogs : ∀ name ∈ logs, (dir.read name).isSome) :
    logs.mapM (readEntries enc io dir) =
      if ∃ name ∈ logs, io.read name then none else some (logs.map (entriesOf enc dir)) := by
  induction logs with
  | nil => simp
  | cons name logs ih =>
    obtain ⟨hname, hlogs⟩ := List.forall_mem_cons.mp hlogs
    obtain ⟨content, hcontent⟩ := Option.isSome_iff_exists.mp hname
    rw [List.mapM_cons, ih hlogs, readEntries, hcontent]
    by_cases hr : io.read name
    · simp [hr]
    · by_cases hrest : ∃ name ∈ logs, io.read name
      · simp [hr, hrest]
      · simp [hr, hrest, entriesOf, hcontent]

theorem read_removeLog (acc : Nat × RunDir) (name other : Text) :
    (removeLog io acc name).2.read other =
      if other = name ∧ ¬ io.getsize name ∧ ¬ io.remove name then none else acc.2.read other := by
  unfold removeLog
  cases hc : acc.2.read name with
  | none =>
    by_cases ho : other = name
    · simp [ho, hc]
    · simp [ho]
  | some content =>
    by_cases hg : io.getsize name
    · simp [hg]
    · by_cases hr : io.remove name
      · simp [hg, hr]
      · simp [hg, hr, RunDir.read_remove]

/-- A log is deleted unless a call for that very log fails. -/
theorem read_removeLogs (logs : List Text) (acc : Nat × RunDir) (name : Text) :
    (logs.foldl (removeLog io) acc).2.read name =
      if name ∈ logs ∧ ¬ io.getsize name ∧ ¬ io.remove name then none else acc.2.read name := by
  induction logs generalizing acc with
  | nil => simp
  | cons log logs ih =>
    rw [List.foldl_cons, ih, read_removeLog]
    by_cases hlog : name = log
    · subst hlog
      by_cases hf : ¬ io.getsize name ∧ ¬ io.remove name
      · simp [hf]
      · rw [if_neg fun h => hf h.2, if_neg fun h => hf h.2, if_neg fun h => hf h.2]
    · simp [hlog]

-- ---------------------------------------------------------------------------
-- The whole function
-- ---------------------------------------------------------------------------

/-- The function gives up before it deletes anything: a log cannot be read, no
log has a marked line, or the summaries cannot be written. -/
def Refuses (dir : RunDir) : Prop :=
  (∃ name ∈ clientLogs dir, io.read name) ∨
    (∀ name ∈ clientLogs dir, entriesOf enc dir name = []) ∨ io.write ≠ .written

theorem isClientLog_summaryFile : isClientLog summaryFile = false := by decide +kernel

theorem isClientLog_summaryTmp : isClientLog (summaryFile ++ ".tmp".toList) = false := by
  decide +kernel

theorem RunDir.read_put_log (dir : RunDir) {name other : Text} (hlog : isClientLog other = true)
    (hname : isClientLog name = false) (content : Bytes) :
    (dir.put name content).read other = dir.read other := by
  rw [RunDir.read_put, if_neg]
  rintro rfl
  rw [hlog] at hname
  cases hname

theorem RunDir.read_remove_log (dir : RunDir) {name other : Text} (hlog : isClientLog other = true)
    (hname : isClientLog name = false) : (dir.remove name).read other = dir.read other := by
  rw [RunDir.read_remove, if_neg]
  rintro rfl
  rw [hlog] at hname
  cases hname

/-- The write succeeds and the file has the text, or the logs are as they were. -/
theorem atomicWrite_spec (dir : RunDir) (text : Text) :
    ((atomicWrite enc io dir summaryFile text).1 = some true ∧ io.write = .written ∧
      ∃ content, enc.encode text = some content ∧
        (atomicWrite enc io dir summaryFile text).2 =
          (dir.remove (summaryFile ++ ".tmp".toList)).put summaryFile content) ∨
    ((atomicWrite enc io dir summaryFile text).1 = none ∨
      (atomicWrite enc io dir summaryFile text).1 = some false ∧ io.write ≠ .written) ∧
      ∀ name, isClientLog name = true →
        (atomicWrite enc io dir summaryFile text).2.read name = dir.read name := by
  have hput (content : Bytes) (name : Text) (hlog : isClientLog name = true) :=
    dir.read_put_log hlog isClientLog_summaryTmp content
  unfold atomicWrite
  cases hw : io.write with
  | openFails => exact .inr ⟨.inr ⟨rfl, nofun⟩, fun _ _ => rfl⟩
  | written =>
    cases he : enc.encode text with
    | none => exact .inr ⟨.inl rfl, hput _⟩
    | some content => exact .inl ⟨rfl, rfl, content, rfl, rfl⟩
  | writeFails part =>
    cases he : enc.encode text with
    | none => exact .inr ⟨.inl rfl, hput _⟩
    | some content => exact .inr ⟨.inr ⟨rfl, nofun⟩, hput _⟩
  | replaceFails =>
    cases he : enc.encode text with
    | none => exact .inr ⟨.inl rfl, hput _⟩
    | some content => exact .inr ⟨.inr ⟨rfl, nofun⟩, hput _⟩

/-- The entries of all logs, log by log. -/
def allEntries (dir : RunDir) : List Text := ((clientLogs dir).map (entriesOf enc dir)).flatten

theorem allEntries_eq_nil {dir : RunDir} :
    allEntries enc dir = [] ↔ ∀ name ∈ clientLogs dir, entriesOf enc dir name = [] := by
  simp only [allEntries, List.flatten_eq_nil_iff, List.forall_mem_map]

theorem pruneClientLogs_eq (dir : RunDir) :
    pruneClientLogs enc io dir =
      if (∃ name ∈ clientLogs dir, io.read name) ∨ allEntries enc dir = [] then (some 0, dir)
      else
        match atomicWrite enc io dir summaryFile (joinLines (allEntries enc dir)) with
        | (none, dir) => (none, dir)
        | (some false, dir) => (some 0, dir)
        | (some true, dir') =>
          let (freed, dir') := (clientLogs dir).foldl (removeLog io) (0, dir')
          (some freed, dir') := by
  have hlogs : ∀ name ∈ clientLogs dir, (dir.read name).isSome := fun _ h => (mem_clientLogs.mp h).2
  have hmap := mapM_readEntries enc io hlogs
  rw [pruneClientLogs, hmap]
  by_cases hnone : clientLogs dir = []
  · refine (if_pos hnone).trans (if_pos (.inr ?_)).symm
    rw [allEntries, hnone]
    rfl
  · refine (if_neg hnone).trans ?_
    by_cases hread : ∃ name ∈ clientLogs dir, io.read name
    · rw [if_pos hread, if_pos (.inl hread)]
    · rw [if_neg hread]
      simp only [hread, false_or]
      rfl

/-- The function refuses or an exception leaves it, and the logs are as they were;
or the summaries hold all entries and what no call fails for is deleted. -/
theorem pruneClientLogs_spec (dir : RunDir) :
    (Refuses enc io dir ∨ (pruneClientLogs enc io dir).1 = none) ∧
      (∀ name, isClientLog name = true →
        (pruneClientLogs enc io dir).2.read name = dir.read name) ∨
    ¬ Refuses enc io dir ∧
      (∃ summary, enc.encode (joinLines (allEntries enc dir)) = some summary ∧
        (pruneClientLogs enc io dir).2.read summaryFile = some summary) ∧
      ∀ name ∈ clientLogs dir, (pruneClientLogs enc io dir).2.read name =
        if ¬ io.getsize name ∧ ¬ io.remove name then none else dir.read name := by
  rw [pruneClientLogs_eq]
  by_cases hstop : (∃ name ∈ clientLogs dir, io.read name) ∨ allEntries enc dir = []
  · rw [if_pos hstop]
    refine .inl ⟨.inl ?_, fun _ _ => rfl⟩
    exact hstop.imp_right fun h => .inl ((allEntries_eq_nil enc).mp h)
  rw [if_neg hstop]
  obtain ⟨hread, hentries⟩ := not_or.mp hstop
  have hwrite := atomicWrite_spec enc io dir (joinLines (allEntries enc dir))
  revert hwrite
  rcases atomicWrite enc io dir summaryFile (joinLines (allEntries enc dir)) with ⟨written, dir'⟩
  rintro (⟨rfl, hw, content, henc, rfl⟩ | ⟨hw, hlogs⟩)
  · refine .inr ⟨?_, ⟨content, henc, ?_⟩, fun name hname => ?_⟩
    · rintro (h | h | h)
      · exact hread h
      · exact hentries ((allEntries_eq_nil enc).mpr h)
      · exact h hw
    · have hno : summaryFile ∉ clientLogs dir := fun h => by
        have hlog := (mem_clientLogs.mp h).1
        rw [isClientLog_summaryFile] at hlog
        cases hlog
      dsimp only
      rw [read_removeLogs, if_neg fun h => hno h.1, RunDir.read_put, if_pos rfl]
    · have hlog := (mem_clientLogs.mp hname).1
      dsimp only
      rw [read_removeLogs, RunDir.read_put_log _ hlog isClientLog_summaryFile,
        RunDir.read_remove_log _ hlog isClientLog_summaryTmp]
      simp only [hname, true_and]
  · rcases hw with rfl | ⟨rfl, hw⟩
    · exact .inl ⟨.inr rfl, hlogs⟩
    · exact .inl ⟨.inl (.inr (.inr hw)), hlogs⟩

theorem entriesOf_eq_nil {dir : RunDir} {name : Text} {content : Bytes}
    (h : dir.read name = some content) : entriesOf enc dir name = [] ↔ keptLines enc content = [] := by
  rw [entriesOf, h, Option.getD_some, summaryEntries, List.map_eq_nil_iff]

/-- `_prune_client_logs` keeps the records of every log exactly where it refuses
to prune, or each log has a marked line or cannot be deleted. -/
theorem prune_keeps_records (dir : RunDir) (hret : (pruneClientLogs enc io dir).1.isSome) :
    (∀ name content, isClientLog name = true → dir.read name = some content →
      RecordsKept enc (pruneClientLogs enc io dir).2 name content) ↔
    Refuses enc io dir ∨ ∀ name content, isClientLog name = true → dir.read name = some content →
      keptLines enc content ≠ [] ∨ io.getsize name ∨ io.remove name := by
  rcases pruneClientLogs_spec enc io dir with ⟨hstop, hlogs⟩ | ⟨hno, ⟨summary, henc, hsum⟩, hlogs⟩
  · have hrefuses : Refuses enc io dir :=
      hstop.resolve_right fun h => by rw [h] at hret; cases hret
    refine iff_of_true (fun name content hlog hread => .inl ?_) (.inl hrefuses)
    rw [hlogs name hlog, hread]
  · have hlogs' {name content} (hlog : isClientLog name = true)
        (hread : dir.read name = some content) :=
      hlogs name (mem_clientLogs.mpr ⟨hlog, by rw [hread]; rfl⟩)
    constructor
    · refine fun h => .inr fun name content hlog hread => ?_
      by_contra hbad
      simp only [not_or, Bool.not_eq_true] at hbad
      obtain ⟨hkept, hg, hr⟩ := hbad
      have hgone := (hlogs' hlog hread).trans (if_pos (by simp [hg, hr]))
      rcases h name content hlog hread with hstill | ⟨-, hsome, -⟩
      · rw [hgone] at hstill
        cases hstill
      · exact hkept hsome
    · intro h name content hlog hread
      have hcase := h.resolve_left hno name content hlog hread
      by_cases hgone : ¬ io.getsize name ∧ ¬ io.remove name
      · refine .inr ⟨(hlogs' hlog hread).trans (if_pos hgone), ?_, _, summary, hsum, henc, ?_⟩
        · exact hcase.resolve_right fun h => h.elim hgone.1 hgone.2
        · have hmem : name ∈ clientLogs dir := mem_clientLogs.mpr ⟨hlog, by rw [hread]; rfl⟩
          obtain ⟨before, after, hsplit⟩ := List.append_of_mem hmem
          refine ⟨(before.map (entriesOf enc dir)).flatten, (after.map (entriesOf enc dir)).flatten, ?_⟩
          rw [allEntries, hsplit]
          simp [entriesOf, hread]
      · exact .inl ((hlogs' hlog hread).trans (if_neg hgone) |>.trans hread)

/-- ASCII, which the aggregate lines are in. -/
def asciiEncoding : TextEncoding where
  decode bytes := bytes.map fun b => if b.toNat < 128 then Char.ofNat b.toNat else Char.ofNat 0xfffd
  encode text := if text.all (·.toNat < 128) then some (text.map fun c => .ofNat c.toNat) else none

/-- No call fails. -/
def noFaults : IoFaults where
  read _ := false
  write := .written
  getsize _ := false
  remove _ := false

def asciiBytes (s : String) : Bytes := s.toList.map fun c => .ofNat c.toNat

/-- One client printed its summary, the other has only its raw records. -/
def mixedLogs : RunDir where
  files := [("client-0.log".toList, asciiBytes "[hotstuff summary] n=1
raw
"),
    ("client-1.log".toList, asciiBytes "2024-01-01 10:00:00.5 [hotstuff info] 0.2
")]
  distinct := by decide +kernel

def summarisedLogs : RunDir where
  files := [("client-0.log".toList, asciiBytes "[hotstuff summary] n=1
raw
")]
  distinct := by decide +kernel

/-- The log without any marked line is deleted with the other. -/
theorem prune_keeps_records_mixed :
    (pruneClientLogs asciiEncoding noFaults mixedLogs).1.isSome ∧
      isClientLog "client-1.log".toList = true ∧
      mixedLogs.read "client-1.log".toList =
        some (asciiBytes "2024-01-01 10:00:00.5 [hotstuff info] 0.2\n") ∧
      ¬ RecordsKept asciiEncoding (pruneClientLogs asciiEncoding noFaults mixedLogs).2
        "client-1.log".toList (asciiBytes "2024-01-01 10:00:00.5 [hotstuff info] 0.2\n") := by
  refine ⟨by decide +kernel, by decide +kernel, by decide +kernel, ?_⟩
  rintro (hstill | ⟨-, hkept, -⟩)
  · exact absurd hstill (by decide +kernel)
  · exact hkept (by decide +kernel)

theorem prune_keeps_records_summarised :
    RecordsKept asciiEncoding (pruneClientLogs asciiEncoding noFaults summarisedLogs).2
      "client-0.log".toList (asciiBytes "[hotstuff summary] n=1
raw
") := by
  refine (prune_keeps_records asciiEncoding noFaults summarisedLogs (by decide +kernel)).mpr (.inr ?_)
    _ _ (by decide +kernel) (by decide +kernel)
  intro name content _ hread
  have hname := (summarisedLogs.read_isSome_iff name).mp (by rw [hread]; rfl)
  obtain rfl := List.mem_singleton.mp hname
  have hcontent : summarisedLogs.read "client-0.log".toList =
      some (asciiBytes "[hotstuff summary] n=1\nraw\n") := by decide +kernel
  cases hcontent.symm.trans hread
  exact .inl (by decide +kernel)

end HotStuffTx
