/-!
# Triples for calls that may throw

A C++ member function is a computation `EStateM ε σ α`: it returns a value or
throws, and what it wrote before a throw stays written. `Triple x s Q E` says
that `x` run from `s` returns with `Q` or throws with `E`.
-/

/-- Run from `s`, `x` returns with `Q` or throws with `E`. -/
def Triple (x : EStateM ε σ α) (s : σ) (Q : α → σ → Prop) (E : ε → σ → Prop) : Prop :=
  match x s with
  | .ok a s' => Q a s'
  | .error e s' => E e s'

namespace Triple

theorem pure' (h : Q a s) : Triple (pure a) s Q E := h

theorem throw' {E : ε → σ → Prop} (h : E e s) : Triple (throw e : EStateM ε σ α) s Q E := h

theorem get' (h : Q s s) : Triple get s Q E := h

theorem modify' (h : Q ⟨⟩ (f s)) : Triple (modify f) s Q E := h

theorem get_bind (h : Triple (f s) s Q E) : Triple (get >>= f) s Q E := h

theorem set_bind (h : Triple (f ⟨⟩) s' Q E) : Triple (set s' >>= f) s Q E := h

theorem modify_bind (h : Triple (f ⟨⟩) (g s) Q E) : Triple (modify g >>= f) s Q E := h

theorem throw_bind {E : ε → σ → Prop} {f : α → EStateM ε σ β} (h : E e s) :
    Triple (throw e >>= f) s Q E := h

theorem ite {c : Prop} [Decidable c] (ht : c → Triple x s Q E) (hf : ¬c → Triple y s Q E) :
    Triple (if c then x else y) s Q E := by
  split
  · exact ht ‹_›
  · exact hf ‹_›

theorem bind {x : EStateM ε σ α} {f : α → EStateM ε σ β} (hx : Triple x s Q E)
    (hf : ∀ a s', Q a s' → Triple (f a) s' R E) : Triple (x >>= f) s R E := by
  simp only [Triple, Bind.bind, EStateM.bind] at hx ⊢
  cases h : x s with
  | ok a s' =>
    simp only [h] at hx
    exact hf a s' hx
  | error e s' =>
    simp only [h] at hx
    exact hx

theorem mono (h : Triple x s Q E) (hQ : ∀ a s', Q a s' → Q' a s') (hE : ∀ e s', E e s' → E' e s') :
    Triple x s Q' E' := by
  simp only [Triple] at h ⊢
  split
  · rename_i hx
    simp only [hx] at h
    exact hQ _ _ h
  · rename_i hx
    simp only [hx] at h
    exact hE _ _ h

theorem and (h : Triple x s Q E) (h' : Triple x s Q' E') :
    Triple x s (fun a s' => Q a s' ∧ Q' a s') (fun e s' => E e s' ∧ E' e s') := by
  simp only [Triple] at h h' ⊢
  split
  · rename_i hx
    simp only [hx] at h h'
    exact ⟨h, h'⟩
  · rename_i hx
    simp only [hx] at h h'
    exact ⟨h, h'⟩

theorem ok (h : Triple x s Q E) (hx : x s = .ok a s') : Q a s' := by
  simpa only [Triple, hx] using h

theorem error (h : Triple x s Q E) (hx : x s = .error e s') : E e s' := by
  simpa only [Triple, hx] using h

/-- Whether it returns or throws, `x` relates the first state to the last. -/
def Frame (R : σ → σ → Prop) (x : EStateM ε σ α) : Prop :=
  ∀ s, Triple x s (fun _ s' => R s s') (fun _ s' => R s s')

namespace Frame

variable {R : σ → σ → Prop}

theorem pure' (hR : ∀ s, R s s) : Frame R (pure a : EStateM ε σ α) := hR

theorem throw' (hR : ∀ s, R s s) : Frame R (throw e : EStateM ε σ α) := hR

theorem modify' {f : σ → σ} (h : ∀ s, R s (f s)) : Frame R (modify f : EStateM ε σ PUnit) := h

theorem get_bind {f : σ → EStateM ε σ α}
    (h : ∀ s, Triple (f s) s (fun _ s' => R s s') (fun _ s' => R s s')) : Frame R (get >>= f) := h

theorem bind {x : EStateM ε σ α} {f : α → EStateM ε σ β}
    (hR : ∀ a b c, R a b → R b c → R a c) (hx : Frame R x) (hf : ∀ a, Frame R (f a)) :
    Frame R (x >>= f) := by
  intro s
  refine ((hx s).mono (fun _ s' h => h) fun _ _ h => h).bind fun a s' hs => ?_
  exact (hf a s').mono (fun _ _ h => hR s s' _ hs h) fun _ _ h => hR s s' _ hs h

theorem mono {R' : σ → σ → Prop} {x : EStateM ε σ α} (h : Frame R x)
    (hR : ∀ s s', R s s' → R' s s') : Frame R' x :=
  fun s => (h s).mono (fun _ s' => hR s s') fun _ s' => hR s s'

end Frame

end Triple
