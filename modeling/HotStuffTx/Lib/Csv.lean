import Mathlib

/-!
# Separated values

The minimally quoted dialect of separated values over any alphabet: a writer, the
translation of line ends of a text file, and the reader as a machine that takes
one symbol at a time. What is written and read as text comes back with its line
ends translated, as long as no field exceeds the limit of the reader.
-/

namespace Csv

/-- The four symbols that mean something. A record ends with `cr` and `nl`. -/
structure Dialect (σ : Type _) where
  delimiter : σ
  quotechar : σ
  cr : σ
  nl : σ
  distinct : [delimiter, quotechar, cr, nl].Nodup

def excel : Dialect Char := ⟨',', '"', '\r', '\n', by decide⟩

variable {σ : Type _} [DecidableEq σ] (d : Dialect σ)

-- ---------------------------------------------------------------------------
-- The writer
-- ---------------------------------------------------------------------------

def Dialect.special (c : σ) : Bool := c = d.delimiter || c = d.quotechar || c = d.cr || c = d.nl

/-- A quote inside quotes is doubled. -/
def Dialect.double (field : List σ) : List σ :=
  field.flatMap fun c => if c = d.quotechar then [c, c] else [c]

def Dialect.writeField (field : List σ) : List σ :=
  if field.any d.special then d.quotechar :: d.double field ++ [d.quotechar] else field

/-- A record of one empty field is quoted, to tell it from the empty record. -/
def Dialect.writeFields (fields : List (List σ)) : List σ :=
  if fields = [[]] then [d.quotechar, d.quotechar]
  else [d.delimiter].intercalate (fields.map d.writeField)

def Dialect.writeRecord (fields : List (List σ)) : List σ := d.writeFields fields ++ [d.cr, d.nl]

def Dialect.write (records : List (List (List σ))) : List σ := records.flatMap d.writeRecord

-- ---------------------------------------------------------------------------
-- Line ends
-- ---------------------------------------------------------------------------

/-- After a `cr`, a `nl` belongs to the same line end. -/
def Dialect.translateFrom : Bool → List σ → List σ
  | _, [] => []
  | afterCr, c :: cs =>
    if c = d.cr then d.nl :: Dialect.translateFrom true cs
    else if c = d.nl ∧ afterCr then Dialect.translateFrom false cs
    else c :: Dialect.translateFrom false cs

def Dialect.translate (cs : List σ) : List σ := d.translateFrom false cs

-- ---------------------------------------------------------------------------
-- The reader
-- ---------------------------------------------------------------------------

inductive State
  | startRecord
  | startField
  | inField
  | inQuotedField
  | quoteInQuotedField
  deriving DecidableEq

structure Reader (σ : Type _) where
  state : State := .startRecord
  field : List σ := []
  fields : List (List σ) := []
  records : List (List (List σ)) := []

def Reader.saveField (r : Reader σ) : Reader σ :=
  { r with state := .startField, field := [], fields := r.fields ++ [r.field] }

def Reader.endRecord (r : Reader σ) : Reader σ := { records := r.records ++ [r.fields] }

/-- `none` is the error that the field is larger than the limit. -/
def Reader.addChar (limit : Nat) (r : Reader σ) (c : σ) (state : State) : Option (Reader σ) :=
  if limit ≤ r.field.length then none else some { r with state, field := r.field ++ [c] }

def Dialect.startField (limit : Nat) (r : Reader σ) (c : σ) : Option (Reader σ) :=
  if c = d.nl then some r.saveField.endRecord
  else if c = d.quotechar then some { r with state := .inQuotedField }
  else if c = d.delimiter then some r.saveField
  else r.addChar limit c .inField

/-- One symbol of a text whose line ends are translated. -/
def Dialect.process (limit : Nat) (r : Reader σ) (c : σ) : Option (Reader σ) :=
  match r.state with
  | .startRecord => if c = d.nl then some r.endRecord else d.startField limit r c
  | .startField => d.startField limit r c
  | .inField =>
    if c = d.nl then some r.saveField.endRecord
    else if c = d.delimiter then some r.saveField
    else r.addChar limit c .inField
  | .inQuotedField =>
    if c = d.quotechar then some { r with state := .quoteInQuotedField }
    else r.addChar limit c .inQuotedField
  | .quoteInQuotedField =>
    if c = d.quotechar then r.addChar limit c .inQuotedField
    else if c = d.delimiter then some r.saveField
    else if c = d.nl then some r.saveField.endRecord
    else r.addChar limit c .inField

/-- The text may end inside a record, and inside quotes. -/
def Reader.finish (r : Reader σ) : List (List (List σ)) :=
  if r.state = .startRecord then r.records else r.saveField.endRecord.records

def Dialect.read (limit : Nat) (cs : List σ) : Option (List (List (List σ))) :=
  (cs.foldlM (d.process limit) {}).map Reader.finish

-- ---------------------------------------------------------------------------
-- What translation does
-- ---------------------------------------------------------------------------

section Translation

variable {d} {cs : List σ} {b : Bool}

omit [DecidableEq σ] in
theorem Dialect.symbols : d.delimiter ≠ d.quotechar ∧ d.delimiter ≠ d.cr ∧
    d.delimiter ≠ d.nl ∧ d.quotechar ≠ d.cr ∧ d.quotechar ≠ d.nl ∧ d.cr ≠ d.nl := by
  have h := d.distinct
  simp only [List.nodup_cons, List.mem_cons, List.not_mem_nil, not_or, or_false] at h
  tauto

theorem Dialect.not_mem_translateFrom : d.cr ∉ d.translateFrom b cs := by
  obtain ⟨-, -, -, -, -, hne⟩ := d.symbols
  induction cs generalizing b with
  | nil => simp [translateFrom]
  | cons c cs ih =>
    simp only [translateFrom]
    split_ifs with hcr hnl
    · simpa [hne] using ih
    · exact ih
    · simpa [Ne.symm hcr] using ih

theorem Dialect.not_mem_translate : d.cr ∉ d.translate cs := not_mem_translateFrom

theorem Dialect.translate_of_not_mem (h : d.cr ∉ cs) : d.translate cs = cs := by
  rw [translate]
  induction cs with
  | nil => rfl
  | cons c cs ih =>
    obtain ⟨hc, hcs⟩ := not_or.mp (List.mem_cons.not.mp h)
    simp [translateFrom, Ne.symm hc, ih hcs]

/-- The two parts of a text are translated apart, unless the second continues a
line end. -/
theorem Dialect.translateFrom_append {ys : List σ} (h : ys.head? ≠ some d.nl) (xs : List σ) :
    d.translateFrom b (xs ++ ys) = d.translateFrom b xs ++ d.translate ys := by
  induction xs generalizing b with
  | nil =>
    cases ys with
    | nil => rfl
    | cons y ys =>
      have hy : y ≠ d.nl := fun hy => h (by simp [hy])
      simp [translate, translateFrom, hy]
  | cons x xs ih =>
    simp only [List.cons_append, translateFrom]
    split_ifs <;> simp [ih]

/-- Once a line has ended, what follows is translated on its own. -/
theorem Dialect.translateFrom_append_nl (xs ys : List σ) :
    d.translateFrom b (xs ++ d.nl :: ys) = d.translateFrom b (xs ++ [d.nl]) ++ d.translate ys := by
  obtain ⟨-, -, -, -, -, hne⟩ := d.symbols
  induction xs generalizing b with
  | nil => cases b <;> simp [translateFrom, translate, Ne.symm hne]
  | cons x xs ih =>
    simp only [List.cons_append, translateFrom]
    split_ifs <;> simp [ih]

theorem Dialect.translateFrom_double :
    d.translateFrom b (d.double cs) = d.double (d.translateFrom b cs) := by
  obtain ⟨-, -, -, hcr, hnl, -⟩ := d.symbols
  induction cs generalizing b with
  | nil => rfl
  | cons c cs ih =>
    simp only [double] at ih
    by_cases hc : c = d.quotechar
    · subst hc
      simp [double, translateFrom, hcr, hnl, ih]
    · by_cases hc' : c = d.cr
      · simp [double, translateFrom, hc', Ne.symm hcr, Ne.symm hnl, ih]
      · by_cases hc'' : c = d.nl ∧ b
        · obtain ⟨rfl, hb⟩ := hc''
          simp [double, translateFrom, hb, Ne.symm hnl, hc', ih]
        · simp [double, translateFrom, hc, hc', hc'', ih]

theorem Dialect.not_any_special (h : ¬cs.any d.special) {c : σ} (hc : c ∈ cs) :
    c ≠ d.delimiter ∧ c ≠ d.quotechar ∧ c ≠ d.cr ∧ c ≠ d.nl := by
  simp only [List.any_eq_true, not_exists, not_and] at h
  simpa [special, not_or, and_assoc] using h c hc

theorem Dialect.translate_writeField :
    d.translate (d.writeField cs) = if cs.any d.special then
      d.quotechar :: d.double (d.translate cs) ++ [d.quotechar] else cs := by
  obtain ⟨-, -, -, hcr, hnl, -⟩ := d.symbols
  by_cases h : cs.any d.special
  · rw [writeField, if_pos h, if_pos h, translate, List.cons_append, translateFrom, if_neg hcr,
      if_neg (by simp [hnl]), translateFrom_append (by simpa using hnl), translateFrom_double,
      translate_of_not_mem (by simpa using Ne.symm hcr)]
    rfl
  · rw [writeField, if_neg h, if_neg h]
    exact translate_of_not_mem fun hc => (not_any_special h hc).2.2.1 rfl

end Translation

-- ---------------------------------------------------------------------------
-- Reading what was written
-- ---------------------------------------------------------------------------

section RoundTrip

variable {d} {limit : Nat} {r : Reader σ}

/-- The reader stands behind a whole field. Only an empty one leaves it at the
start of a record. -/
structure Reader.Full (r : Reader σ) (field : List σ) (fields : List (List σ))
    (records : List (List (List σ))) : Prop where
  field : r.field = field
  fields : r.fields = fields
  records : r.records = records
  closed : r.state ≠ .inQuotedField

theorem Reader.Full.process_delimiter {field : List σ} {fields : List (List σ)}
    {records : List (List (List σ))} (h : r.Full field fields records) :
    d.process limit r d.delimiter = some ⟨.startField, [], fields ++ [field], records⟩ := by
  obtain ⟨hq, -, hnl, -⟩ := d.symbols
  obtain ⟨rfl, rfl, rfl, hclosed⟩ := h
  cases hs : r.state <;> simp_all [Dialect.process, Dialect.startField, Reader.saveField]

theorem Reader.Full.process_nl {field : List σ} {fields : List (List σ)}
    {records : List (List (List σ))} (h : r.Full field fields records)
    (hs : r.state ≠ .startRecord) :
    d.process limit r d.nl = some { records := records ++ [fields ++ [field]] } := by
  obtain ⟨-, -, hd, -, hq, -⟩ := d.symbols
  obtain ⟨rfl, rfl, rfl, hclosed⟩ := h
  cases hs' : r.state <;>
    simp_all [Dialect.process, Dialect.startField, Reader.saveField, Reader.endRecord, Ne.symm]

/-- Inside quotes every symbol but the quote stands for itself. -/
theorem Dialect.foldlM_double (field : List σ) (hs : r.state = .inQuotedField)
    (hlimit : r.field.length + field.length ≤ limit) :
    (d.double field).foldlM (d.process limit) r = some { r with field := r.field ++ field } := by
  induction field generalizing r with
  | nil => simp [double]
  | cons c field ih =>
    simp only [List.length_cons] at hlimit
    have hadd (state : State) : r.addChar limit c state =
        some { r with state, field := r.field ++ [c] } := by
      rw [Reader.addChar, if_neg (by omega)]
    have hrest := ih (r := { r with field := r.field ++ [c] }) hs (by simp; omega)
    simp only [List.append_assoc, List.singleton_append] at hrest
    by_cases hc : c = d.quotechar
    · simp only [double, List.flatMap_cons, if_pos hc, List.cons_append, List.nil_append,
        List.foldlM_cons, process, hs, Option.bind_eq_bind, Option.bind_some]
      rw [Reader.addChar, if_neg (by simpa using by omega), Option.bind_some]
      rw [← hs]
      exact hrest
    · simp only [double, List.flatMap_cons, if_neg hc, List.cons_append, List.nil_append,
        List.foldlM_cons, process, hs, Option.bind_eq_bind, hadd, Option.bind_some]
      rw [← hs]
      exact hrest

/-- A field without special symbols. -/
theorem Dialect.foldlM_plain (field : List σ) (hfield : ¬field.any d.special)
    (hs : r.state = .inField) (hlimit : r.field.length + field.length ≤ limit) :
    field.foldlM (d.process limit) r = some { r with field := r.field ++ field } := by
  induction field generalizing r with
  | nil => simp [List.foldlM]
  | cons c field ih =>
    obtain ⟨hd, -, -, hnl⟩ := not_any_special hfield List.mem_cons_self
    simp only [List.length_cons] at hlimit
    have hrest := ih (r := { r with field := r.field ++ [c] })
      (by simp only [List.any_cons, Bool.or_eq_true, not_or] at hfield; exact hfield.2) hs
      (by simp; omega)
    simp only [List.append_assoc, List.singleton_append] at hrest
    rw [List.foldlM_cons, process]
    simp only [hs, if_neg hnl, if_neg hd, Reader.addChar,
      if_neg (show ¬limit ≤ r.field.length by omega), Option.bind_eq_bind, Option.bind_some]
    rw [← hs]
    exact hrest

/-- Where a field may start. -/
theorem Dialect.process_start (c : σ) (hs : r.state = .startRecord ∨ r.state = .startField)
    (hc : c ≠ d.nl) : d.process limit r c = d.startField limit r c := by
  rcases hs with hs | hs <;> simp [process, hs, hc]

theorem Dialect.foldlM_writeField (field : List σ)
    (hs : r.state = .startRecord ∨ r.state = .startField) (hr : r.field = [])
    (hlimit : (d.translate field).length ≤ limit) :
    ∃ r' : Reader σ, (d.translate (d.writeField field)).foldlM (d.process limit) r = some r' ∧
      r'.Full (d.translate field) r.fields r.records ∧
      (field = [] ∧ r' = r ∨ r'.state ≠ .startRecord) := by
  obtain ⟨hdq, -, hdnl, -, hqnl, -⟩ := d.symbols
  rw [translate_writeField]
  split_ifs with h
  · refine ⟨{ r with state := .quoteInQuotedField, field := d.translate field }, ?_,
      ⟨rfl, rfl, rfl, by simp⟩, .inr (by simp)⟩
    rw [List.cons_append, List.foldlM_cons, process_start _ hs hqnl, startField, if_neg hqnl,
      if_pos rfl, Option.bind_eq_bind, Option.bind_some, List.foldlM_append,
      foldlM_double _ rfl (by simpa [hr] using hlimit), Option.bind_eq_bind, Option.bind_some]
    simp [process, hr]
  · have hplain : d.translate field = field :=
      translate_of_not_mem fun hc => (not_any_special h hc).2.2.1 rfl
    rw [hplain] at hlimit ⊢
    cases field with
    | nil =>
      refine ⟨r, rfl, ⟨hr, rfl, rfl, ?_⟩, .inl ⟨rfl, rfl⟩⟩
      rcases hs with hs | hs <;> simp [hs]
    | cons c field =>
      obtain ⟨hd, hq, -, hnl⟩ := not_any_special h List.mem_cons_self
      simp only [List.length_cons] at hlimit
      refine ⟨{ r with state := .inField, field := c :: field }, ?_, ⟨rfl, rfl, rfl, by simp⟩,
        .inr (by simp)⟩
      rw [List.foldlM_cons, process_start _ hs hnl, startField, if_neg hnl, if_neg hq, if_neg hd,
        Reader.addChar, if_neg (by simp [hr]; omega), Option.bind_eq_bind, Option.bind_some,
        foldlM_plain field
          (by simp only [List.any_cons, Bool.or_eq_true, not_or] at h; exact h.2) rfl
          (by simp [hr]; omega)]
      simp [hr]

theorem Dialect.writeFields_cons (field : List σ) (fields : List (List σ))
    (h : field :: fields ≠ [[]]) : d.writeFields (field :: fields) =
      d.writeField field ++ fields.flatMap fun f => d.delimiter :: d.writeField f := by
  rw [writeFields, if_neg h]
  clear h
  induction fields generalizing field with
  | nil => simp
  | cons f fields ih =>
    rw [List.map_cons, List.map_cons, List.intercalate_cons_cons, ← List.map_cons, ih]
    simp

/-- Behind a field, the fields that are left and the end of the record. -/
theorem Dialect.foldlM_rest {field : List σ} {fields : List (List σ)}
    {records : List (List (List σ))} (h : r.Full field fields records) (rest : List (List σ))
    (hs : rest ≠ [] ∨ r.state ≠ .startRecord)
    (hlimit : ∀ f ∈ rest, (d.translate f).length ≤ limit) :
    (d.translate ((rest.flatMap fun f => d.delimiter :: d.writeField f) ++ [d.cr, d.nl])).foldlM
        (d.process limit) r =
      some { records := records ++ [fields ++ field :: rest.map d.translate] } := by
  obtain ⟨-, hdcr, hdnl, -, -, hcrnl⟩ := d.symbols
  induction rest generalizing r field fields with
  | nil =>
    simp only [List.flatMap_nil, List.nil_append, translate, translateFrom, if_neg hcrnl.symm,
      and_self, if_true, List.foldlM_cons, h.process_nl (hs.resolve_left (· rfl))]
    rfl
  | cons f rest ih =>
    have hhead : ((rest.flatMap fun f => d.delimiter :: d.writeField f) ++
        [d.cr, d.nl]).head? ≠ some d.nl := by
      cases rest <;> simp [hcrnl, hdnl]
    rw [List.flatMap_cons, List.cons_append, List.cons_append, List.append_assoc, translate,
      translateFrom, if_neg hdcr, if_neg (by simp), translateFrom_append hhead, List.foldlM_cons,
      h.process_delimiter, Option.bind_eq_bind, Option.bind_some, List.foldlM_append]
    obtain ⟨r', hr', hfull, hstart⟩ := foldlM_writeField (d := d)
      (r := ⟨.startField, [], fields ++ [field], records⟩) f (.inr rfl) rfl
      (hlimit f List.mem_cons_self)
    rw [← translate, hr', Option.bind_eq_bind, Option.bind_some,
      ih hfull (.inr ?_) fun f hf => hlimit f (List.mem_cons_of_mem _ hf)]
    · simp
    · rcases hstart with ⟨-, rfl⟩ | hstart
      · simp
      · exact hstart

theorem Dialect.foldlM_writeRecord (records : List (List (List σ))) (fields : List (List σ))
    (hlimit : ∀ f ∈ fields, (d.translate f).length ≤ limit) :
    (d.translate (d.writeRecord fields)).foldlM (d.process limit) { records } =
      some { records := records ++ [fields.map d.translate] } := by
  obtain ⟨hdq, hdcr, hdnl, hqcr, hqnl, hcrnl⟩ := d.symbols
  cases fields with
  | nil =>
    simp [writeRecord, writeFields, translate, translateFrom, hcrnl.symm, process, Reader.endRecord]
  | cons field fields =>
    by_cases h : field :: fields = [[]]
    · simp [h, writeRecord, writeFields, translate, translateFrom, hcrnl.symm, process, startField,
        Reader.endRecord, Reader.saveField, hqcr, hqnl, hdnl.symm, hqnl.symm]
    · have hhead : ((fields.flatMap fun f => d.delimiter :: d.writeField f) ++
          [d.cr, d.nl]).head? ≠ some d.nl := by
        cases fields <;> simp [hcrnl, hdnl]
      obtain ⟨r', hr', hfull, hstart⟩ := foldlM_writeField (d := d)
        (r := { records }) field (.inl rfl) rfl (hlimit field List.mem_cons_self)
      rw [writeRecord, writeFields_cons _ _ h, List.append_assoc, translate,
        translateFrom_append hhead, List.foldlM_append, ← translate, hr', Option.bind_eq_bind,
        Option.bind_some,
        foldlM_rest hfull fields ?_ fun f hf => hlimit f (List.mem_cons_of_mem _ hf)]
      · simp
      · rcases hstart with ⟨rfl, -⟩ | hstart
        · exact .inl fun hnil => h (by rw [hnil])
        · exact .inr hstart

theorem Dialect.translate_writeRecord_append (fields : List (List σ)) (cs : List σ) :
    d.translate (d.writeRecord fields ++ cs) =
      d.translate (d.writeRecord fields) ++ d.translate cs := by
  have hline (ys : List σ) : d.writeRecord fields ++ ys =
      (d.writeFields fields ++ [d.cr]) ++ d.nl :: ys := by
    simp [writeRecord]
  have hend : d.writeRecord fields = (d.writeFields fields ++ [d.cr]) ++ [d.nl] := by
    simp [writeRecord]
  rw [hline, hend, translate, translateFrom_append_nl, ← translate]

theorem Dialect.foldlM_write (before records : List (List (List σ)))
    (hlimit : ∀ fields ∈ records, ∀ f ∈ fields, (d.translate f).length ≤ limit) :
    (d.translate (d.write records)).foldlM (d.process limit) { records := before } =
      some { records := before ++ records.map (List.map d.translate) } := by
  induction records generalizing before with
  | nil => simp [write, translate, translateFrom]
  | cons fields records ih =>
    rw [write, List.flatMap_cons, ← write, translate_writeRecord_append, List.foldlM_append,
      foldlM_writeRecord before fields (hlimit fields List.mem_cons_self), Option.bind_eq_bind,
      Option.bind_some, ih _ fun fields hf => hlimit fields (List.mem_cons_of_mem _ hf)]
    simp

/-- What was written is read back with the line ends of its fields translated. -/
theorem Dialect.read_write (records : List (List (List σ)))
    (hlimit : ∀ fields ∈ records, ∀ f ∈ fields, (d.translate f).length ≤ limit) :
    d.read limit (d.translate (d.write records)) = some (records.map (List.map d.translate)) := by
  rw [read, foldlM_write [] records hlimit]
  rfl

end RoundTrip

-- ---------------------------------------------------------------------------
-- What any text is read as
-- ---------------------------------------------------------------------------

section Fields

variable {d} {limit : Nat} {r r' : Reader σ} {c : σ}

/-- Everything a symbol can do. -/
theorem Dialect.process_cases (h : d.process limit r c = some r') :
    r' = r.saveField.endRecord ∨ r' = r.endRecord ∨ r' = r.saveField ∨
      (∃ state, r' = { r with state }) ∨
      (∃ state, r.field.length < limit ∧ r' = { r with state, field := r.field ++ [c] }) := by
  have hadd {state : State} (hadd : r.addChar limit c state = some r') :
      ∃ state, r.field.length < limit ∧ r' = { r with state, field := r.field ++ [c] } := by
    rw [Reader.addChar] at hadd
    split_ifs at hadd with hlimit
    exact ⟨state, by omega, (Option.some.inj hadd).symm⟩
  simp only [process, startField] at h
  split at h <;> split_ifs at h <;>
    first
      | exact .inl (Option.some.inj h).symm
      | exact .inr (.inl (Option.some.inj h).symm)
      | exact .inr (.inr (.inl (Option.some.inj h).symm))
      | exact .inr (.inr (.inr (.inl ⟨_, (Option.some.inj h).symm⟩)))
      | exact .inr (.inr (.inr (.inr (hadd h))))

/-- The fields of the reader have a property. -/
structure Reader.All (p : List σ → Prop) (r : Reader σ) : Prop where
  field : p r.field
  fields : ∀ f ∈ r.fields, p f
  records : ∀ fields ∈ r.records, ∀ f ∈ fields, p f

variable {p : List σ → Prop}

omit [DecidableEq σ] in
theorem Reader.All.saveField (h : r.All p) (hnil : p []) : r.saveField.All p where
  field := hnil
  fields f hf := by
    rcases List.mem_append.mp hf with hf | hf
    · exact h.fields f hf
    · exact List.mem_singleton.mp hf ▸ h.field
  records := h.records

omit [DecidableEq σ] in
theorem Reader.All.endRecord (h : r.All p) (hnil : p []) : r.endRecord.All p where
  field := hnil
  fields f hf := absurd hf List.not_mem_nil
  records fields hfields := by
    rcases List.mem_append.mp hfields with hfields | hfields
    · exact h.records fields hfields
    · exact List.mem_singleton.mp hfields ▸ h.fields

theorem Reader.All.process (h : r.All p) (hnil : p [])
    (hadd : ∀ f, p f → f.length < limit → p (f ++ [c])) (hr : d.process limit r c = some r') :
    r'.All p := by
  obtain rfl | rfl | rfl | ⟨state, rfl⟩ | ⟨state, hlimit, rfl⟩ := Dialect.process_cases hr
  · exact (h.saveField hnil).endRecord hnil
  · exact h.endRecord hnil
  · exact h.saveField hnil
  · exact ⟨h.field, h.fields, h.records⟩
  · exact ⟨hadd r.field h.field hlimit, h.fields, h.records⟩

theorem Reader.All.foldlM {cs : List σ} (h : r.All p) (hnil : p [])
    (hadd : ∀ c ∈ cs, ∀ f, p f → f.length < limit → p (f ++ [c]))
    (hr : cs.foldlM (d.process limit) r = some r') : r'.All p := by
  induction cs generalizing r with
  | nil => exact Option.some.inj hr ▸ h
  | cons c cs ih =>
    rw [List.foldlM_cons] at hr
    obtain ⟨r₁, hr₁, hr⟩ := Option.bind_eq_some_iff.mp hr
    exact ih (h.process hnil (hadd c List.mem_cons_self) hr₁)
      (fun c hc => hadd c (List.mem_cons_of_mem _ hc)) hr

/-- A field that is read holds symbols of the text, no more than the limit. -/
theorem Dialect.read_fields {cs : List σ} {records : List (List (List σ))}
    (h : d.read limit cs = some records) {fields : List (List σ)} (hfields : fields ∈ records)
    {f : List σ} (hf : f ∈ fields) : f.length ≤ limit ∧ f ⊆ cs := by
  obtain ⟨r, hr, rfl⟩ := Option.map_eq_some_iff.mp h
  have hall : r.All fun f => f.length ≤ limit ∧ f ⊆ cs := by
    refine Reader.All.foldlM (r := {}) ⟨?_, ?_, ?_⟩ ?_ ?_ hr
    · exact ⟨Nat.zero_le _, List.nil_subset _⟩
    · exact fun f hf => absurd hf List.not_mem_nil
    · exact fun fields hfields => absurd hfields List.not_mem_nil
    · exact ⟨Nat.zero_le _, List.nil_subset _⟩
    · rintro c hc f ⟨-, hsub⟩ hlt
      exact ⟨by simpa using hlt, List.append_subset.mpr ⟨hsub, by simpa using hc⟩⟩
  rw [Reader.finish] at hfields
  split_ifs at hfields
  · exact hall.records fields hfields f hf
  · exact ((hall.saveField ⟨Nat.zero_le _, List.nil_subset _⟩).endRecord
      ⟨Nat.zero_le _, List.nil_subset _⟩).records fields hfields f hf

end Fields

end Csv
