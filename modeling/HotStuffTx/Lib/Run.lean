/-!
# Runs of a state machine

`exec step s es` is the state after the events `es`; `Allowed` says that each
event was admitted in the state it was taken in. An invariant is proved of one
admitted step and then holds along every run.
-/

namespace Run

variable {σ ε : Type _}

/-- The state after the events. -/
def exec (step : σ → ε → σ) (s : σ) (es : List ε) : σ := es.foldl step s

/-- Every event is admitted where it is taken. -/
def Allowed (step : σ → ε → σ) (ok : σ → ε → Prop) : σ → List ε → Prop
  | _, [] => True
  | s, e :: es => ok s e ∧ Allowed step ok (step s e) es

instance Allowed.decide (step : σ → ε → σ) (ok : σ → ε → Prop) [∀ s e, Decidable (ok s e)] :
    ∀ s es, Decidable (Allowed step ok s es)
  | _, [] => isTrue trivial
  | s, e :: es => @instDecidableAnd _ _ _ (Allowed.decide step ok (step s e) es)

/-- Some admitted run leads from `s₀` to `s`. -/
def Reachable (step : σ → ε → σ) (ok : σ → ε → Prop) (s₀ s : σ) : Prop :=
  ∃ es, Allowed step ok s₀ es ∧ exec step s₀ es = s

variable {step : σ → ε → σ} {ok ok' : σ → ε → Prop}

@[simp] theorem exec_nil : exec step s [] = s := rfl

@[simp] theorem exec_cons : exec step s (e :: es) = exec step (step s e) es := rfl

theorem exec_append : exec step s (es ++ fs) = exec step (exec step s es) fs :=
  List.foldl_append

theorem allowed_append :
    Allowed step ok s (es ++ fs) ↔ Allowed step ok s es ∧ Allowed step ok (exec step s es) fs := by
  induction es generalizing s with
  | nil => simp [Allowed]
  | cons e es ih => simp [Allowed, ih, and_assoc]

/-- Where nothing is asked of the events, every run is one. -/
theorem allowed_true : Allowed step (fun _ _ => True) s es := by
  induction es generalizing s with
  | nil => trivial
  | cons e es ih => exact ⟨trivial, ih⟩

theorem Allowed.mono (h : Allowed step ok s es) (hok : ∀ s e, ok s e → ok' s e) :
    Allowed step ok' s es := by
  induction es generalizing s with
  | nil => trivial
  | cons e es ih => exact ⟨hok s e h.1, ih h.2⟩

theorem Allowed.and (h : Allowed step ok s es) (h' : Allowed step ok' s es) :
    Allowed step (fun s e => ok s e ∧ ok' s e) s es := by
  induction es generalizing s with
  | nil => trivial
  | cons e es ih => exact ⟨⟨h.1, h'.1⟩, ih h.2 h'.2⟩

/-- The events taken are those of the run. -/
theorem Allowed.mem (h : Allowed step ok s es) : Allowed step (fun s e => ok s e ∧ e ∈ es) s es := by
  induction es generalizing s with
  | nil => trivial
  | cons e es ih =>
    exact ⟨⟨h.1, List.mem_cons_self⟩, (ih h.2).mono fun _ _ he => ⟨he.1, List.mem_cons_of_mem _ he.2⟩⟩

/-- A step lemma gives a run lemma. -/
theorem Allowed.inv {I : σ → Prop} (h : Allowed step ok s es) (hs : I s)
    (hstep : ∀ s e, I s → ok s e → I (step s e)) : I (exec step s es) := by
  induction es generalizing s with
  | nil => exact hs
  | cons e es ih => exact ih h.2 (hstep s e hs h.1)

/-- A run whose every step leaves less to do is no longer than what there was. -/
theorem Allowed.length_le {I : σ → Prop} {m : σ → Nat} (h : Allowed step ok s es) (hs : I s)
    (hI : ∀ s e, I s → ok s e → I (step s e)) (hstep : ∀ s e, I s → ok s e → m (step s e) < m s) :
    es.length + m (exec step s es) ≤ m s := by
  induction es generalizing s with
  | nil => simp
  | cons e es ih =>
    have hlt := hstep s e hs h.1
    have hle := ih h.2 (hI s e hs h.1)
    simp only [List.length_cons, exec_cons]
    omega

/-- What relates each state to the next relates the first to the last. -/
theorem Allowed.rel {I : σ → Prop} {R : σ → σ → Prop} (h : Allowed step ok s es) (hs : I s)
    (hI : ∀ s e, I s → ok s e → I (step s e)) (hrefl : ∀ s, R s s)
    (htrans : ∀ a b c, R a b → R b c → R a c) (hstep : ∀ s e, I s → ok s e → R s (step s e)) :
    R s (exec step s es) := by
  induction es generalizing s with
  | nil => exact hrefl s
  | cons e es ih => exact htrans _ _ _ (hstep s e hs h.1) (ih h.2 (hI s e hs h.1))

theorem Reachable.refl : Reachable step ok s s := ⟨[], trivial, rfl⟩

theorem Reachable.snoc (h : Reachable step ok s₀ s) (he : ok s e) :
    Reachable step ok s₀ (step s e) := by
  obtain ⟨es, hes, rfl⟩ := h
  exact ⟨es ++ [e], allowed_append.mpr ⟨hes, he, trivial⟩, exec_append⟩

theorem Reachable.trans (h : Reachable step ok s₀ s) (h' : Reachable step ok s t) :
    Reachable step ok s₀ t := by
  obtain ⟨es, hes, rfl⟩ := h
  obtain ⟨fs, hfs, rfl⟩ := h'
  exact ⟨es ++ fs, allowed_append.mpr ⟨hes, hfs⟩, exec_append⟩

theorem Reachable.mono (h : Reachable step ok s₀ s) (hok : ∀ s e, ok s e → ok' s e) :
    Reachable step ok' s₀ s := by
  obtain ⟨es, hes, rfl⟩ := h
  exact ⟨es, hes.mono hok, rfl⟩

theorem Reachable.inv {I : σ → Prop} (h : Reachable step ok s₀ s) (hs : I s₀)
    (hstep : ∀ s e, I s → ok s e → I (step s e)) : I s := by
  obtain ⟨es, hes, rfl⟩ := h
  exact hes.inv hs hstep

end Run
