import HotStuffTx.Callbacks

/-!
# What promises settle to

A promise made by `then` or `fail` is settled by its own callback, or by the promise
that the function of the callback returned, and by nothing else; that of `all` or
`race` by its members. `Owed` is what a step has still to do for this to hold.
-/

set_option linter.unusedSectionVars false

namespace HotStuffTx

namespace Promises

variable {α : Type}

-- ---------------------------------------------------------------------------
-- The invariant
-- ---------------------------------------------------------------------------

/-- A promise to settle, one to link to the promise returned for it, or a member of
`all` or `race` to link. -/
inductive Owed
  | nothing
  | settle (d : Nat)
  | link (d pm : Nat)
  | loop (gather idx : Nat)

section
variable (s : Promises α) (w : Owed)

def frames : List PmTask := s.stack ++ s.dropped

def SettledAt (d : Nat) : Prop := ∃ p : Promise α, s.pms[d]? = some p ∧ p.state ≠ none

def Done (d : Nat) : Prop := s.SettledAt d ∨ w = .settle d

/-- `d` is to be settled so. -/
inductive Due (d : Nat) (o : Outcome) (v : PmAny α) : Prop
  | pass {x : Firing α} (hx : x ∈ s.fired) (hc : x.closure = ⟨none, o, d⟩) (hv : x.value = v)
  | chain {x : Firing α} (hx : x ∈ s.fired) (hf : x.closure.f = some (.settle d o)) (hv : x.value = v)
  | inner {x : Firing α} (hx : x ∈ s.fired) (ho : x.closure.o = o) (hd : x.closure.npm = d)
      (hn : x.closure.f ≠ none) (hu : x.closure.f ≠ some .user) (hv : v = .empty)
  | void {x : Firing α} (hx : x ∈ s.fired) (hc : x.closure = ⟨some .user, o, d⟩)
      (hr : (d, .void) ∈ s.returned) (hv : v = .empty)
  | value {x : Firing α} (hx : x ∈ s.fired) (hc : x.closure = ⟨some .user, o, d⟩)
      (hr : (d, .value v) ∈ s.returned)
  | all {a : Nat} {g : Gather α} (hg : s.gathers[a]? = some g) (hd : g.npm = d)
      (hr : g.race = false) (ho : o = .fulfilled) (hall : none ∉ g.results)
      (hv : v = .values (g.results.map fun r => r.getD .empty))

/-- What a callback that has run has done. -/
def Made (x : Firing α) : Prop :=
  match x.closure.f with
  | none => s.Done w x.closure.npm
  | some .user => True
  | some (.settle d _) =>
    s.Done w d ∧ (s.Done w x.closure.npm ∨ .finish x.closure.o x.closure.npm ∈ s.frames)
  | some (.collect a i) =>
    (∃ g : Gather α, s.gathers[a]? = some g ∧ g.results[i]? = some (some x.value)) ∧
      (s.Done w x.closure.npm ∨ .finish x.closure.o x.closure.npm ∈ s.frames)

/-- What a function that has returned leads to. -/
def Gave (d : Nat) : Returned α → Prop
  | .void | .value _ => s.Done w d
  | .promise pm => (∃ l ∈ s.links, l.pm = pm ∧ l.f = chain d) ∨ w = .link d pm

/-- How far the loop over the members is. -/
structure Looped (a : Nat) (g : Gather α) : Prop where
  le : g.idx ≤ g.members.length
  loop : g.idx = g.members.length ∨ .each a ∈ s.frames
  linked : ∀ j < g.idx, (∃ l ∈ s.links, g.members[j]? = some l.pm ∧ l.f = g.funcs a j) ∨ w = .loop a j
  length : g.results.length = g.members.length
  size : g.size = g.results.countP Option.isNone
  nonempty : g.race = false → g.members ≠ []
  full : g.race = false → g.size = 0 → s.Done w g.npm

/-- Where the lambdas of the library come from. -/
def Sourced (l : Link) (o : Outcome) : Prop :=
  match l.f o with
  | some (.settle d o') => o' = o ∧ ((d, .promise l.pm) ∈ s.returned ∨ ∃ (a : Nat) (g : Gather α) (j : Nat), s.gathers[a]? = some g ∧
      g.npm = d ∧ j < g.idx ∧ g.members[j]? = some l.pm ∧ (o = .fulfilled → g.race = true))
  | some (.collect a i) => o = .fulfilled ∧ ∃ g : Gather α, s.gathers[a]? = some g ∧ g.race = false ∧ i < g.idx ∧
      g.members[i]? = some l.pm
  | _ => True

def userOf : PmTask → Option Nat
  | .user _ npm => some npm
  | _ => none

def firedUser (x : Firing α) : Option Nat := if x.closure.f = some .user then some x.closure.npm else none

structure Flow : Prop where
  blank : ∀ (d : Nat) (p : Promise α), s.pms[d]? = some p → p.state = none → ∀ o, p.value o = .empty
  due : ∀ (d : Nat) (p : Promise α) (o : Outcome), s.pms[d]? = some p → p.state = some o → s.Due d o (p.value o) ∨ ¬ s.Derived d
  users : (s.frames.filterMap userOf ++ s.returned.map Prod.fst).Perm (s.fired.filterMap firedUser)
  called : ∀ o npm, .user o npm ∈ s.frames → ∃ x ∈ s.fired, x.closure = ⟨some .user, o, npm⟩
  finishes : ∀ o npm, .finish o npm ∈ s.frames → ∃ x ∈ s.fired, x.closure.o = o ∧
    x.closure.npm = npm ∧ x.closure.f ≠ none ∧ x.closure.f ≠ some .user
  made : ∀ x ∈ s.fired, s.Made w x
  returns : ∀ d r, (d, r) ∈ s.returned → s.Gave w d r
  loops : ∀ (a : Nat) (g : Gather α), s.gathers[a]? = some g → s.Looped w a g
  results : ∀ (a : Nat) (g : Gather α) (i : Nat) (v : PmAny α), s.gathers[a]? = some g → g.results[i]? = some (some v) →
    ∃ x ∈ s.fired, x.closure.f = some (.collect a i) ∧ x.value = v
  sources : ∀ l ∈ s.links, ∀ o, s.Sourced l o
  once : ∀ l ∈ s.links, ∀ l' ∈ s.links, ∀ a i, l.f .fulfilled = some (.collect a i) →
    l'.f .fulfilled = some (.collect a i) → l = l'
  apart : (s.links.map Link.npm ++ s.gathers.map Gather.npm).Nodup
  inside : ∀ g ∈ s.gathers, g.npm < s.pms.length ∧ ∀ m ∈ g.members, m < s.pms.length

end

-- ---------------------------------------------------------------------------
-- Growth
-- ---------------------------------------------------------------------------

/-- A gather keeps its promise and its members; its loop and its results go on. -/
structure Goes (g g' : Gather α) : Prop where
  npm : g'.npm = g.npm
  race : g'.race = g.race
  members : g'.members = g.members
  idx : g.idx ≤ g'.idx
  results : ∀ (i : Nat) (v : PmAny α), g.results[i]? = some (some v) → g'.results[i]? = some (some v)
  length : g'.results.length = g.results.length

/-- Nothing is taken away. -/
structure Grows (s s' : Promises α) : Prop where
  stable : Stable s s'
  frames : ∀ t ∈ s.frames, t ∈ s'.frames
  fired : ∀ x ∈ s.fired, x ∈ s'.fired
  returned : ∀ x ∈ s.returned, x ∈ s'.returned
  links : ∀ l ∈ s.links, l ∈ s'.links
  gathers : ∀ (a : Nat) (g : Gather α), s.gathers[a]? = some g → ∃ g' : Gather α, s'.gathers[a]? = some g' ∧ Goes g g'

theorem Goes.refl {g : Gather α} : Goes g g := ⟨rfl, rfl, rfl, Nat.le_refl _, fun _ _ => id, rfl⟩

/-- Results that are all there stay. -/
theorem Goes.results_eq {g g' : Gather α} (h : Goes g g') (hall : none ∉ g.results) :
    g'.results = g.results := by
  refine List.ext_getElem? fun i => ?_
  cases hi : g.results[i]? with
  | none =>
    rw [List.getElem?_eq_none_iff] at hi ⊢
    rwa [h.length]
  | some r =>
    cases r with
    | none => exact absurd (List.mem_of_getElem? hi) hall
    | some v => exact h.results i v hi

section
variable {s s' : Promises α} {w w' : Owed} {d pm : Nat} {o : Outcome} {v : PmAny α} {x : Firing α}

theorem Grows.refl : Grows s s :=
  ⟨.refl, fun _ => id, fun _ => id, fun _ => id, fun _ => id, fun _ g hg => ⟨g, hg, .refl⟩⟩

theorem SettledAt.mono (h : Stable s s') (hd : s.SettledAt d) : s'.SettledAt d := by
  obtain ⟨p, hp, hn⟩ := hd
  obtain ⟨p', hp', hk⟩ := h d p hp
  obtain ⟨o, ho⟩ := Option.ne_none_iff_exists'.mp hn
  exact ⟨p', hp', by rw [(hk o ho).1]; exact Option.some_ne_none o⟩

namespace Grows

variable (h : Grows s s')
include h

theorem done (hd : s.Done w d) : s'.Done w d := hd.imp_left (·.mono h.stable)

theorem due (hd : s.Due d o v) : s'.Due d o v := by
  cases hd with
  | pass hx hc hv => exact .pass (h.fired _ hx) hc hv
  | chain hx hf hv => exact .chain (h.fired _ hx) hf hv
  | inner hx ho hd hn hu hv => exact .inner (h.fired _ hx) ho hd hn hu hv
  | void hx hc hr hv => exact .void (h.fired _ hx) hc (h.returned _ hr) hv
  | value hx hc hr => exact .value (h.fired _ hx) hc (h.returned _ hr)
  | all hg hd hr ho hall hv =>
    obtain ⟨g', hg', hk⟩ := h.gathers _ _ hg
    have heq := hk.results_eq hall
    exact .all hg' (hk.npm.trans hd) (hk.race.trans hr) ho (heq ▸ hall) (heq ▸ hv)

variable (hdone : ∀ d, s.Done w d → s'.Done w' d)
include hdone

theorem made (hx : s.Made w x) : s'.Made w' x := by
  unfold Made at hx ⊢
  have hfin (hd : s.Done w x.closure.npm ∨ .finish x.closure.o x.closure.npm ∈ s.frames) :
      s'.Done w' x.closure.npm ∨ .finish x.closure.o x.closure.npm ∈ s'.frames :=
    hd.imp (hdone _) (h.frames _)
  cases hf : x.closure.f with
  | none =>
    rw [hf] at hx
    exact hdone _ hx
  | some f =>
    rw [hf] at hx
    cases f with
    | user => trivial
    | settle d o => exact ⟨hdone _ hx.1, hfin hx.2⟩
    | collect a i =>
      obtain ⟨⟨g, hg, hr⟩, hd⟩ := hx
      obtain ⟨g', hg', hk⟩ := h.gathers a g hg
      exact ⟨⟨g', hg', hk.results i _ hr⟩, hfin hd⟩

theorem gave (hlink : ∀ d pm, w = .link d pm → s'.Gave w' d (.promise pm)) {r : Returned α}
    (hr : s.Gave w d r) : s'.Gave w' d r := by
  cases r with
  | void | value => exact hdone d hr
  | promise pm =>
    rcases hr with ⟨l, hl, hpm, hf⟩ | hw
    · exact .inl ⟨l, h.links l hl, hpm, hf⟩
    · exact hlink d pm hw

theorem looped {a : Nat} {g : Gather α} (hloop : ∀ j, w = .loop a j →
      (∃ l ∈ s'.links, g.members[j]? = some l.pm ∧ l.f = g.funcs a j) ∨ w' = .loop a j)
    (hg : s.Looped w a g) : s'.Looped w' a g where
  le := hg.le
  loop := hg.loop.imp_right (h.frames _)
  linked j hj := (hg.linked j hj).elim (fun ⟨l, hl, hk⟩ => .inl ⟨l, h.links l hl, hk⟩) (hloop j)
  length := hg.length
  size := hg.size
  nonempty := hg.nonempty
  full hr hz := hdone _ (hg.full hr hz)

omit hdone in
theorem sourced {l : Link} (hl : s.Sourced l o) : s'.Sourced l o := by
  unfold Sourced at hl ⊢
  cases hf : l.f o with
  | none => trivial
  | some f =>
    rw [hf] at hl
    cases f with
    | user => trivial
    | settle d o' =>
      refine ⟨hl.1, hl.2.imp (h.returned _) ?_⟩
      rintro ⟨a, g, j, hg, hd, hj, hm, hr⟩
      obtain ⟨g', hg', hk⟩ := h.gathers a g hg
      exact ⟨a, g', j, hg', hk.npm.trans hd, Nat.lt_of_lt_of_le hj hk.idx, hk.members ▸ hm,
        fun ho => hk.race.trans (hr ho)⟩
    | collect a i =>
      obtain ⟨ho, g, hg, hr, hi, hm⟩ := hl
      obtain ⟨g', hg', hk⟩ := h.gathers a g hg
      exact ⟨ho, g', hg', hk.race.trans hr, Nat.lt_of_lt_of_le hi hk.idx, hk.members ▸ hm⟩

end Grows

/-- More may be owed. -/
theorem Flow.owe (h : s.Flow .nothing) (w : Owed) : s.Flow w := by
  have hdone (d : Nat) (hd : s.Done .nothing d) : s.Done w d := .inl (hd.resolve_right nofun)
  exact { h with
    made := fun x hx => Grows.refl.made hdone (h.made x hx)
    returns := fun d r hr => Grows.refl.gave hdone nofun (h.returns d r hr)
    loops := fun a g hg => Grows.refl.looped hdone nofun (h.loops a g hg) }

-- ---------------------------------------------------------------------------
-- Settling
-- ---------------------------------------------------------------------------

theorem settle_cases (hd : d < s.pms.length) (v : Option (PmAny α)) :
    s.SettledAt d ∧ s.settle d o v = s ∨ ∃ p, s.pms[d]? = some p ∧ p.state = none ∧
      s.settle d o v = { s with
        pms := s.pms.set d (p.settle o v)
        stack := .trigger d o (p.callbacks o) :: s.stack } := by
  obtain ⟨p, hp⟩ : ∃ p, s.pms[d]? = some p := ⟨_, List.getElem?_eq_getElem hd⟩
  unfold Promises.settle
  rw [hp]
  dsimp only
  split
  · exact .inr ⟨p, rfl, ‹_›, rfl⟩
  · exact .inl ⟨⟨p, hp, ‹_›⟩, rfl⟩

/-- The promise that was owed is settled. -/
theorem Flow.settle (h : s.Flow (.settle d)) (hd : d < s.pms.length) {v : Option (PmAny α)}
    (hdue : s.Due d o (v.getD .empty) ∨ ¬ s.Derived d) : (s.settle d o v).Flow .nothing := by
  have hstable : Stable s (s.settle d o v) := Stable.refl.settle v
  rcases settle_cases (s := s) (o := o) hd v with ⟨hset, heq⟩ | ⟨p, hp, hn, heq⟩
  · rw [heq]
    have hdone (x : Nat) (hx : s.Done (.settle d) x) : s.Done .nothing x := by
      rcases hx with hx | hx
      · exact .inl hx
      · cases hx
        exact .inl hset
    exact { h with
      made := fun x hx => Grows.refl.made hdone (h.made x hx)
      returns := fun d r hr => Grows.refl.gave hdone nofun (h.returns d r hr)
      loops := fun a g hg => Grows.refl.looped hdone nofun (h.loops a g hg) }
  · rw [heq] at hstable ⊢
    have hself : (s.pms.set d (p.settle o v))[d]? = some (p.settle o v) := List.getElem?_set_self hd
    have hne {x} (hx : x ≠ d) : (s.pms.set d (p.settle o v))[x]? = s.pms[x]? :=
      List.getElem?_set_ne (Ne.symm hx)
    have hg : Grows s { s with
        pms := s.pms.set d (p.settle o v), stack := .trigger d o (p.callbacks o) :: s.stack } :=
      ⟨hstable, fun _ => List.mem_cons_of_mem _, fun _ => id, fun _ => id, fun _ => id,
        fun _ g hg => ⟨g, hg, .refl⟩⟩
    have hdone (x : Nat) (hx : s.Done (.settle d) x) : Done { s with
        pms := s.pms.set d (p.settle o v)
        stack := .trigger d o (p.callbacks o) :: s.stack } .nothing x := by
      rcases hx with hx | hx
      · exact .inl (hx.mono hstable)
      · cases hx
        exact .inl ⟨_, hself, Option.some_ne_none o⟩
    have hframes {t : PmTask} (ht : t ∈ frames { s with
        pms := s.pms.set d (p.settle o v)
        stack := .trigger d o (p.callbacks o) :: s.stack }) (hne : ∀ x o rest, t ≠ .trigger x o rest) :
        t ∈ s.frames := (List.mem_cons.mp ht).resolve_left (hne _ _ _)
    refine ⟨fun x px hx hxn => ?_, fun x px o' hx ho => ?_, h.users, fun o' npm ht => ?_,
      fun o' npm ht => ?_, fun x hx => hg.made hdone (h.made x hx),
      fun x r hr => hg.gave hdone nofun (h.returns x r hr),
      fun a g ha => hg.looped hdone nofun (h.loops a g ha), h.results,
      fun l hl o => hg.sourced (h.sources l hl o), h.once, h.apart, fun g hmem => ?_⟩
    · have hxd : x ≠ d := by
        rintro rfl
        cases hself.symm.trans hx
        cases hxn
      exact h.blank x px ((hne hxd).symm.trans hx) hxn
    · by_cases hxd : x = d
      · subst hxd
        cases hself.symm.trans hx
        cases ho
        refine hdue.imp (fun hdue => ?_) id
        have hv : (p.settle o v).value o = v.getD .empty := by
          cases v with
          | none => exact h.blank x p hp hn o
          | some v => exact Function.update_self ..
        rw [hv]
        exact hg.due hdue
      · exact (h.due x px o' ((hne hxd).symm.trans hx) ho).imp hg.due id
    · exact h.called o' npm (hframes ht (by simp))
    · exact h.finishes o' npm (hframes ht (by simp))
    · rw [List.length_set]
      exact h.inside g hmem

-- ---------------------------------------------------------------------------
-- Callbacks
-- ---------------------------------------------------------------------------

/-- A callback is recorded, with the frames and the results that come of it. -/
def logged (s : Promises α) (x : Firing α) (fs : List PmTask) (gs : List (Gather α)) : Promises α :=
  { s with fired := s.fired ++ [x], stack := fs ++ s.stack, gathers := gs }

section
variable {fs : List PmTask} {gs : List (Gather α)}

theorem grows_logged (hgs : ∀ (a : Nat) (g : Gather α), s.gathers[a]? = some g →
    ∃ g' : Gather α, gs[a]? = some g' ∧ Goes g g') : Grows s (s.logged x fs gs) where
  stable := .of_pms rfl
  frames t ht := by
    show t ∈ (fs ++ s.stack) ++ s.dropped
    rw [List.append_assoc]
    exact List.mem_append_right fs ht
  fired _ := List.mem_append_left _
  returned _ := id
  links _ := id
  gathers := hgs

theorem Flow.logged (h : s.Flow .nothing)
    (hgs : ∀ (a : Nat) (g : Gather α), s.gathers[a]? = some g →
      ∃ g' : Gather α, gs[a]? = some g' ∧ Goes g g')
    (hnpm : gs.map Gather.npm = s.gathers.map Gather.npm)
    (hinside : ∀ g ∈ gs, g.npm < s.pms.length ∧ ∀ m ∈ g.members, m < s.pms.length)
    (huser : fs.filterMap userOf = (firedUser x).toList)
    (hcalled : ∀ o npm, .user o npm ∈ fs → x.closure = ⟨some .user, o, npm⟩)
    (hfinish : ∀ o npm, .finish o npm ∈ fs → x.closure.o = o ∧ x.closure.npm = npm ∧
      x.closure.f ≠ none ∧ x.closure.f ≠ some .user)
    (hmade : (s.logged x fs gs).Made w x)
    (hloops : ∀ (a : Nat) (g : Gather α), gs[a]? = some g → (s.logged x fs gs).Looped w a g)
    (hresults : ∀ (a : Nat) (g : Gather α) (i : Nat) (v : PmAny α), gs[a]? = some g →
      g.results[i]? = some (some v) →
        ∃ y ∈ s.fired ++ [x], y.closure.f = some (.collect a i) ∧ y.value = v) :
    (s.logged x fs gs).Flow w := by
  have hg : Grows s (s.logged x fs gs) := grows_logged hgs
  have hdone (d : Nat) (hd : s.Done .nothing d) : (s.logged x fs gs).Done w d :=
    .inl ((hd.resolve_right nofun).mono hg.stable)
  have hframes {t : PmTask} (ht : t ∈ (s.logged x fs gs).frames) : t ∈ fs ∨ t ∈ s.frames := by
    have ht : t ∈ (fs ++ s.stack) ++ s.dropped := ht
    rw [List.append_assoc] at ht
    exact List.mem_append.mp ht
  refine ⟨h.blank, fun d p o hp ho => ?_, ?_, fun o npm ht => ?_, fun o npm ht => ?_, fun y hy => ?_,
    fun d r hr => hg.gave hdone nofun (h.returns d r hr), hloops, hresults,
    fun l hl o => hg.sourced (h.sources l hl o), h.once, ?_, hinside⟩
  · refine (h.due d p o hp ho).imp hg.due fun hno hd => hno (hd.imp id fun hd => ?_)
    rw [← hnpm]
    exact hd
  · have hone : [x].filterMap firedUser = (firedUser x).toList := by
      rw [List.filterMap_cons, List.filterMap_nil]
      cases firedUser x <;> rfl
    have hfired : (s.fired ++ [x]).filterMap firedUser =
        s.fired.filterMap firedUser ++ (firedUser x).toList := by
      rw [List.filterMap_append, hone]
    show ((((fs ++ s.stack) ++ s.dropped).filterMap userOf) ++ s.returned.map Prod.fst).Perm
      ((s.fired ++ [x]).filterMap firedUser)
    rw [hfired, List.append_assoc, List.filterMap_append, huser, List.append_assoc]
    exact (h.users.append_left _).trans List.perm_append_comm
  · rcases hframes ht with ht | ht
    · exact ⟨x, List.mem_append_right _ (List.mem_singleton_self x), hcalled o npm ht⟩
    · obtain ⟨y, hy, hc⟩ := h.called o npm ht
      exact ⟨y, List.mem_append_left _ hy, hc⟩
  · rcases hframes ht with ht | ht
    · exact ⟨x, List.mem_append_right _ (List.mem_singleton_self x), hfinish o npm ht⟩
    · obtain ⟨y, hy, hc⟩ := h.finishes o npm ht
      exact ⟨y, List.mem_append_left _ hy, hc⟩
  · rcases List.mem_append.mp hy with hy | hy
    · exact hg.made hdone (h.made y hy)
    · rw [List.mem_singleton.mp hy]
      exact hmade
  · show (s.links.map Link.npm ++ gs.map Gather.npm).Nodup
    rw [hnpm]
    exact h.apart

/-- Where no result is written. -/
theorem Flow.logged_same (h : s.Flow .nothing) (huser : fs.filterMap userOf = (firedUser x).toList)
    (hcalled : ∀ o npm, .user o npm ∈ fs → x.closure = ⟨some .user, o, npm⟩)
    (hfinish : ∀ o npm, .finish o npm ∈ fs → x.closure.o = o ∧ x.closure.npm = npm ∧
      x.closure.f ≠ none ∧ x.closure.f ≠ some .user)
    (hmade : (s.logged x fs s.gathers).Made w x) : (s.logged x fs s.gathers).Flow w := by
  have hg : Grows s (s.logged x fs s.gathers) := grows_logged fun _ g hg => ⟨g, hg, .refl⟩
  have hdone (d : Nat) (hd : s.Done .nothing d) : (s.logged x fs s.gathers).Done w d :=
    .inl ((hd.resolve_right nofun).mono hg.stable)
  refine h.logged (fun _ g hg => ⟨g, hg, .refl⟩) rfl h.inside huser hcalled hfinish hmade
    (fun a g ha => hg.looped hdone nofun (h.loops a g ha)) fun a g i v ha hr => ?_
  obtain ⟨y, hy, hc⟩ := h.results a g i v ha hr
  exact ⟨y, List.mem_append_left _ hy, hc⟩

end

-- ---------------------------------------------------------------------------
-- Frames and promises
-- ---------------------------------------------------------------------------

/-- The frame on top comes off, with what it was there for done or owed. -/
theorem Flow.pop {t : PmTask} {stack : List PmTask} {rs returned : List (Nat × Returned α)}
    (h : s.Flow .nothing) (hst : s.stack = t :: stack) (hret : returned = s.returned ++ rs)
    (huser : rs.map Prod.fst = (userOf t).toList) (hgave : ∀ d r, (d, r) ∈ rs → s.Gave w d r)
    (hfin : ∀ o npm, t = .finish o npm → w = .settle npm)
    (heach : ∀ (a : Nat) (g : Gather α), t = .each a → s.gathers[a]? = some g →
      g.idx = g.members.length) : Flow { s with stack, returned } w := by
  have hframes : s.frames = t :: (stack ++ s.dropped) := by
    rw [frames, hst]
    rfl
  have hsub {u : PmTask} (hu : u ∈ stack ++ s.dropped) : u ∈ s.frames :=
    hframes ▸ List.mem_cons_of_mem t hu
  have hdone (d : Nat) (hd : s.Done .nothing d) : Done { s with stack, returned } w d :=
    .inl (hd.resolve_right nofun)
  have hmono {x : Nat × Returned α} (hx : x ∈ s.returned) : x ∈ returned :=
    hret ▸ List.mem_append_left rs hx
  have hfinish {d o npm} (hd : s.Done .nothing d ∨ .finish o npm ∈ s.frames) (heq : npm = d) :
      Done { s with stack, returned } w d ∨ .finish o npm ∈ frames { s with stack, returned } := by
    rcases hd with hd | hd
    · exact .inl (hdone d hd)
    · rw [hframes] at hd
      rcases List.mem_cons.mp hd with hd | hd
      · exact .inl (.inr (heq ▸ hfin o npm hd.symm))
      · exact .inr hd
  refine ⟨h.blank, fun d p o hp ho => ?_, ?_, fun o npm ht => h.called o npm (hsub ht),
    fun o npm ht => h.finishes o npm (hsub ht), fun x hx => ?_, fun d r hr => ?_, fun a g hg => ?_,
    h.results, fun l hl o => ?_, h.once, h.apart, h.inside⟩
  · refine (h.due d p o hp ho).imp (fun hd => ?_) id
    cases hd with
    | pass hx hc hv => exact .pass hx hc hv
    | chain hx hf hv => exact .chain hx hf hv
    | inner hx ho hd hn hu hv => exact .inner hx ho hd hn hu hv
    | void hx hc hr hv => exact .void hx hc (hmono hr) hv
    | value hx hc hr => exact .value hx hc (hmono hr)
    | all hg hd hr ho hall hv => exact .all hg hd hr ho hall hv
  · have hu := h.users
    have hone : (t :: (stack ++ s.dropped)).filterMap userOf =
        (userOf t).toList ++ (stack ++ s.dropped).filterMap userOf := by
      rw [List.filterMap_cons]
      cases userOf t <;> rfl
    rw [hframes, hone, ← huser] at hu
    refine List.Perm.trans ?_ hu
    rw [hret, List.map_append, ← List.append_assoc, List.append_assoc (rs.map Prod.fst)]
    exact List.perm_append_comm
  · have hx := h.made x hx
    unfold Made at hx ⊢
    cases hf : x.closure.f with
    | none =>
      rw [hf] at hx
      exact hdone _ hx
    | some f =>
      rw [hf] at hx
      cases f with
      | user => trivial
      | settle d o => exact ⟨hdone _ hx.1, hfinish hx.2 rfl⟩
      | collect a i => exact ⟨hx.1, hfinish hx.2 rfl⟩
  · rw [hret] at hr
    rcases List.mem_append.mp hr with hr | hr
    · have hr := h.returns d r hr
      cases r with
      | void | value => exact hdone d hr
      | promise pm => exact .inl (hr.resolve_right nofun)
    · exact hgave d r hr
  · have hl := h.loops a g hg
    refine ⟨hl.le, ?_, fun j hj => .inl ((hl.linked j hj).resolve_right nofun), hl.length, hl.size,
      hl.nonempty, fun hr hz => hdone _ (hl.full hr hz)⟩
    rcases hl.loop with heq | hmem
    · exact .inl heq
    · rw [hframes] at hmem
      rcases List.mem_cons.mp hmem with heq | hmem
      · exact .inl (heach a g heq.symm hg)
      · exact .inr hmem
  · have hsrc := h.sources l hl o
    unfold Sourced at hsrc ⊢
    split
    · rename_i d o' hf
      rw [hf] at hsrc
      exact ⟨hsrc.1, hsrc.2.imp_left hmono⟩
    · rename_i a i hf
      rw [hf] at hsrc
      exact hsrc
    · trivial

/-- A frame that nothing waits for. -/
theorem Flow.push {t : PmTask} (h : s.Flow w) (huser : userOf t = none)
    (hfin : ∀ o npm, t ≠ .finish o npm) : (s.push t).Flow w := by
  have hg : Grows s (s.push t) :=
    ⟨.of_pms rfl, fun _ => List.mem_cons_of_mem t, fun _ => id, fun _ => id, fun _ => id,
      fun _ g hg => ⟨g, hg, .refl⟩⟩
  have hdone (d : Nat) (hd : s.Done w d) : (s.push t).Done w d := hd
  have hold {u : PmTask} (hu : u ∈ (s.push t).frames) : u = t ∨ u ∈ s.frames := List.mem_cons.mp hu
  exact {
    blank := h.blank
    due := fun d p o hp ho => (h.due d p o hp ho).imp hg.due id
    users := by
      show ((t :: s.frames).filterMap userOf ++ _).Perm _
      rw [List.filterMap_cons_none huser]
      exact h.users
    called := fun o npm hu => h.called o npm ((hold hu).resolve_left fun heq => by
      rw [← heq] at huser
      cases huser)
    finishes := fun o npm hu => h.finishes o npm ((hold hu).resolve_left fun heq => hfin o npm heq.symm)
    made := fun x hx => hg.made hdone (h.made x hx)
    returns := fun d r hr => hg.gave hdone (fun d pm hw => .inr hw) (h.returns d r hr)
    loops := fun a g ha => hg.looped hdone (fun j hw => .inr hw) (h.loops a g ha)
    results := h.results
    sources := fun l hl o => hg.sourced (h.sources l hl o)
    once := h.once
    apart := h.apart
    inside := h.inside }

/-- The frames may change place. -/
theorem Flow.shuffle {stack dropped : List PmTask} (h : s.Flow w)
    (hperm : (stack ++ dropped).Perm s.frames) : Flow { s with stack, dropped } w := by
  have hg : Grows s { s with stack, dropped } :=
    ⟨.of_pms rfl, fun _ ht => hperm.symm.subset ht, fun _ => id, fun _ => id, fun _ => id,
      fun _ g hg => ⟨g, hg, .refl⟩⟩
  have hdone (d : Nat) (hd : s.Done w d) : Done { s with stack, dropped } w d := hd
  exact {
    blank := h.blank
    due := fun d p o hp ho => (h.due d p o hp ho).imp hg.due id
    users := ((hperm.filterMap userOf).append_right _).trans h.users
    called := fun o npm ht => h.called o npm (hperm.subset ht)
    finishes := fun o npm ht => h.finishes o npm (hperm.subset ht)
    made := fun x hx => hg.made hdone (h.made x hx)
    returns := fun d r hr => hg.gave hdone (fun d pm hw => .inr hw) (h.returns d r hr)
    loops := fun a g ha => hg.looped hdone (fun j hw => .inr hw) (h.loops a g ha)
    results := h.results
    sources := fun l hl o => hg.sourced (h.sources l hl o)
    once := h.once
    apart := h.apart
    inside := h.inside }

/-- Promises may be added, and the callbacks of one may change. -/
theorem Flow.repms {pms : List (Promise α)} (h : s.Flow w) (hstable : Stable s { s with pms })
    (hold : ∀ (d : Nat) (p : Promise α), pms[d]? = some p →
      (∃ q : Promise α, s.pms[d]? = some q ∧ p.state = q.state ∧ p.value = q.value) ∨ p = .new) :
    Flow { s with pms } w := by
  have hg : Grows s { s with pms } :=
    ⟨hstable, fun _ => id, fun _ => id, fun _ => id, fun _ => id, fun _ g hg => ⟨g, hg, .refl⟩⟩
  have hdone (d : Nat) (hd : s.Done w d) : Done { s with pms } w d := hg.done hd
  have hlt {d : Nat} (hd : d < s.pms.length) : d < pms.length := by
    obtain ⟨p, hp, -⟩ := hstable d _ (List.getElem?_eq_getElem hd)
    exact (List.getElem?_eq_some_iff.mp hp).1
  exact { h with
    blank := by
      intro d p hp hn o
      rcases hold d p hp with ⟨q, hq, hs, hv⟩ | rfl
      · rw [hv]
        exact h.blank d q hq (hs.symm.trans hn) o
      · rfl
    due := by
      intro d p o hp ho
      rcases hold d p hp with ⟨q, hq, hs, hv⟩ | rfl
      · rw [hv]
        exact (h.due d q o hq (hs.symm.trans ho)).imp hg.due id
      · cases ho
    made := fun x hx => hg.made hdone (h.made x hx)
    returns := fun d r hr => hg.gave hdone (fun d pm hw => .inr hw) (h.returns d r hr)
    loops := fun a g ha => hg.looped hdone (fun j hw => .inr hw) (h.loops a g ha)
    inside := fun g hmem => ⟨hlt (h.inside g hmem).1, fun m hm => hlt ((h.inside g hmem).2 m hm)⟩ }

theorem Flow.append (h : s.Flow w) : Flow { s with pms := s.pms ++ [.new] } w := by
  refine h.repms (.append [.new] rfl) fun d p hp => ?_
  by_cases hlt : d < s.pms.length
  · exact .inl ⟨p, (List.getElem?_append_left hlt).symm.trans hp, rfl, rfl⟩
  · rw [List.getElem?_append_right (Nat.le_of_not_lt hlt)] at hp
    exact .inr (List.mem_singleton.mp (List.mem_of_getElem? hp))

-- ---------------------------------------------------------------------------
-- A callback runs
-- ---------------------------------------------------------------------------

/-- What a function returned for was made by a link. -/
theorem Flow.returned_lt (h : s.Flow w) (hw : s.Wired) {r : Returned α} (hr : (d, r) ∈ s.returned) :
    ∃ l ∈ s.links, l.npm = d ∧ ∃ x ∈ s.firedFor d, x.closure.f = some .user := by
  have hmem : d ∈ s.fired.filterMap firedUser :=
    h.users.subset (List.mem_append_right _ (List.mem_map.mpr ⟨_, hr, rfl⟩))
  obtain ⟨x, hx, hd⟩ := List.mem_filterMap.mp hmem
  unfold firedUser at hd
  split at hd
  · cases hd
    obtain ⟨l, hl, p, o, -, -, rfl⟩ := hw.source hx
    exact ⟨l, hl, rfl, _, List.mem_filter.mpr ⟨hx, by simp⟩, ‹_›⟩
  · cases hd

theorem Flow.settle_lt (h : s.Flow w) (hw : s.Wired) {l : Link} (hl : l ∈ s.links) {o' : Outcome}
    (hf : l.f o = some (.settle d o')) : o' = o ∧ d < s.pms.length := by
  have hsrc := h.sources l hl o
  unfold Sourced at hsrc
  rw [hf] at hsrc
  obtain ⟨ho, hr | ⟨a, g, j, hg, hd, -⟩⟩ := hsrc
  · obtain ⟨l', hl', rfl, -⟩ := h.returned_lt hw hr
    exact ⟨ho, (hw.inside l' hl').2⟩
  · exact ⟨ho, hd ▸ (h.inside g (List.mem_of_getElem? hg)).1⟩

/-- A member's result is not there before its callback has run. -/
theorem Flow.result_none (h : s.Flow .nothing) {l : Link} {a i : Nat} {g : Gather α}
    (hw : Wired { s with fired := s.fired ++ [⟨l.pm, l.closure o, v⟩] }) (hl : l ∈ s.links)
    (hf : l.f o = some (.collect a i)) (hg : s.gathers[a]? = some g) (hi : i < g.results.length) :
    g.results[i]? = some none := by
  cases hr : g.results[i]? with
  | none => exact absurd (List.getElem?_eq_none_iff.mp hr) (Nat.not_le_of_lt hi)
  | some r =>
    cases r with
    | none => rfl
    | some u =>
      obtain ⟨y, hy, hyf, -⟩ := h.results a g i u hg hr
      have hfull (l : Link) (hl : l ∈ s.links) (o : Outcome) (hf : l.f o = some (.collect a i)) :
          o = .fulfilled := by
        have := h.sources l hl o
        unfold Sourced at this
        rw [hf] at this
        exact this.1
      obtain ⟨l', hl', p', o', hp', ho', rfl⟩ := hw.source (List.mem_append_left _ hy)
      have ho'f := hfull l' hl' o' hyf
      have hof := hfull l hl o hf
      have heq : l' = l := h.once l' hl' l hl a i (ho'f ▸ hyf) (hof ▸ hf)
      have hp : ∃ p : Promise α, s.pms[l.pm]? = some p ∧ p.state = some o :=
        ⟨p', heq ▸ hp', by rw [ho', ho'f, hof]⟩
      obtain ⟨p, hp, hps⟩ := hp
      have hcount := hw.count hl hp hps
      have htwo : 2 ≤ (firedFor { s with fired := s.fired ++ [⟨l.pm, l.closure o, v⟩] } l.npm).length := by
        have hone : 0 < (s.firedFor l.npm).length :=
          List.length_pos_of_mem (List.mem_filter.mpr ⟨hy, by simp [Link.closure, heq]⟩)
        have hnew : firedFor { s with fired := s.fired ++ [⟨l.pm, l.closure o, v⟩] } l.npm =
            s.firedFor l.npm ++ [⟨l.pm, l.closure o, v⟩] := by
          rw [firedFor, List.filter_append, List.filter_singleton]
          simp [firedFor, Link.closure]
        rw [hnew, List.length_append, List.length_singleton]
        exact Nat.succ_le_succ hone
      omega

theorem map_npm_set {a : Nat} {g g' : Gather α} (hg : s.gathers[a]? = some g) (heq : g'.npm = g.npm) :
    (s.gathers.set a g').map Gather.npm = s.gathers.map Gather.npm := by
  refine List.ext_getElem? fun b => ?_
  rw [List.getElem?_map, List.getElem?_map]
  by_cases hb : b = a
  · subst hb
    rw [List.getElem?_set_self (List.getElem?_eq_some_iff.mp hg).1, hg]
    exact congrArg some heq
  · rw [List.getElem?_set_ne (Ne.symm hb)]

theorem Flow.collect (h : s.Flow .nothing) {l : Link} {a i : Nat}
    (hw : Wired { s with fired := s.fired ++ [⟨l.pm, l.closure o, v⟩] }) (hl : l ∈ s.links)
    (hf : l.f o = some (.collect a i)) :
    (Promises.collect (s.logged ⟨l.pm, l.closure o, v⟩ [.finish o l.npm] s.gathers) a i v).Flow .nothing := by
  have hsrc := h.sources l hl o
  unfold Sourced at hsrc
  rw [hf] at hsrc
  obtain ⟨-, g, hg, hrace, hi, -⟩ := hsrc
  have hlg := h.loops a g hg
  have hilt : i < g.results.length := by
    rw [hlg.length]
    exact Nat.lt_of_lt_of_le hi hlg.le
  have hnone := h.result_none hw hl hf hg hilt
  generalize hg' : ({ g with results := g.results.set i (some v), size := g.size - 1 } : Gather α) = g'
  have hresults (j : Nat) (u : PmAny α) (hu : g'.results[j]? = some (some u)) :
      j = i ∧ u = v ∨ g.results[j]? = some (some u) := by
    subst hg'
    by_cases hj : j = i
    · subst hj
      rw [List.getElem?_set_self hilt] at hu
      cases hu
      exact .inl ⟨rfl, rfl⟩
    · exact .inr ((List.getElem?_set_ne (Ne.symm hj)).symm.trans hu)
  have hgoes : Goes g g' := by
    subst hg'
    refine ⟨rfl, rfl, rfl, Nat.le_refl _, fun j u hu => ?_, List.length_set⟩
    have hj : j ≠ i := by
      rintro rfl
      cases hnone.symm.trans hu
    exact (List.getElem?_set_ne (Ne.symm hj)).trans hu
  have hsize : g'.size = g'.results.countP Option.isNone := by
    subst hg'
    have hi' : g.results[i] = none := Option.some.inj ((List.getElem?_eq_getElem hilt).symm.trans hnone)
    show g.size - 1 = (g.results.set i (some v)).countP Option.isNone
    rw [List.countP_set hilt, hi', hlg.size]
    rfl
  have halt : a < s.gathers.length := (List.getElem?_eq_some_iff.mp hg).1
  have hself : (s.gathers.set a g')[a]? = some g' := List.getElem?_set_self halt
  have hother {b : Nat} (hb : b ≠ a) : (s.gathers.set a g')[b]? = s.gathers[b]? :=
    List.getElem?_set_ne (Ne.symm hb)
  have hgs (b : Nat) (k : Gather α) (hk : s.gathers[b]? = some k) :
      ∃ k', (s.gathers.set a g')[b]? = some k' ∧ Goes k k' := by
    by_cases hb : b = a
    · subst hb
      cases hg.symm.trans hk
      exact ⟨g', hself, hgoes⟩
    · exact ⟨k, (hother hb).trans hk, .refl⟩
  have hnpm : (s.gathers.set a g').map Gather.npm = s.gathers.map Gather.npm :=
    map_npm_set hg hgoes.npm
  generalize hx : (⟨l.pm, l.closure o, v⟩ : Firing α) = x
  have hxf : x.closure.f = some (.collect a i) := hx ▸ hf
  generalize hw' : (if g'.size = 0 then Owed.settle g'.npm else .nothing) = w
  have hlog : Grows s (s.logged x [.finish o l.npm] (s.gathers.set a g')) := grows_logged hgs
  have hdone (d : Nat) (hd : s.Done .nothing d) :
      (s.logged x [.finish o l.npm] (s.gathers.set a g')).Done w d :=
    .inl ((hd.resolve_right nofun).mono hlog.stable)
  have hflow : (s.logged x [.finish o l.npm] (s.gathers.set a g')).Flow w := by
    refine h.logged hgs hnpm (fun k hk => ?_) ?_ (by simp) (fun o' npm hfin => ?_) ?_
      (fun b k hk => ?_) fun b k j u hk hu => ?_
    · rcases List.mem_or_eq_of_mem_set hk with hk | rfl
      · exact h.inside k hk
      · rw [hgoes.npm, hgoes.members]
        exact h.inside g (List.mem_of_getElem? hg)
    · rw [firedUser, hxf]
      rfl
    · cases List.mem_singleton.mp hfin
      rw [hxf]
      exact ⟨hx ▸ rfl, hx ▸ rfl, by simp, by simp⟩
    · unfold Made
      rw [hxf]
      refine ⟨⟨g', hself, ?_⟩, .inr (hx ▸ List.mem_cons_self)⟩
      subst hg' hx
      exact List.getElem?_set_self hilt
    · by_cases hb : b = a
      · subst hb
        cases hself.symm.trans hk
        have hlg := hlog.looped hdone nofun hlg
        subst hg' hw'
        exact ⟨hlg.le, hlg.loop, hlg.linked, List.length_set.trans hlg.length, hsize, hlg.nonempty,
          fun _ hz => .inr (if_pos hz)⟩
      · exact hlog.looped hdone nofun (h.loops b k ((hother hb).symm.trans hk))
    · by_cases hb : b = a
      · subst hb
        cases hself.symm.trans hk
        rcases hresults j u hu with ⟨rfl, rfl⟩ | hu
        · exact ⟨x, List.mem_append_right _ (List.mem_singleton_self x), hxf, hx ▸ rfl⟩
        · obtain ⟨y, hy, hk⟩ := h.results b g j u hg hu
          exact ⟨y, List.mem_append_left _ hy, hk⟩
      · obtain ⟨y, hy, hk⟩ := h.results b k j u ((hother hb).symm.trans hk) hu
        exact ⟨y, List.mem_append_left _ hy, hk⟩
  have heq : Promises.collect (s.logged x [.finish o l.npm] s.gathers) a i v =
      if g'.size = 0 then
        (s.logged x [.finish o l.npm] (s.gathers.set a g')).settle g'.npm .fulfilled
          (some (.values (g'.results.map fun r => r.getD .empty)))
      else s.logged x [.finish o l.npm] (s.gathers.set a g') := by
    subst hg'
    unfold Promises.collect
    rw [show (s.logged x [.finish o l.npm] s.gathers).gathers[a]? = some g from hg]
    rfl
  rw [heq]
  split
  case isTrue hz =>
    rw [if_pos hz] at hw'
    subst hw'
    refine hflow.settle (hgoes.npm ▸ (h.inside g (List.mem_of_getElem? hg)).1) (.inl ?_)
    refine .all hself rfl (hgoes.race.trans hrace) rfl (fun hnone => ?_) rfl
    exact List.countP_eq_zero.mp (hsize.symm.trans hz) none hnone rfl
  case isFalse hz =>
    rw [if_neg hz] at hw'
    subst hw'
    exact hflow

/-- A callback does what it is there for. -/
theorem Flow.fire (h : s.Flow .nothing) {l : Link} (hl : l ∈ s.links)
    (hw : Wired { s with fired := s.fired ++ [⟨l.pm, l.closure o, v⟩] }) :
    (s.fire l.pm (l.closure o) v).Flow .nothing := by
  generalize hx : (⟨l.pm, l.closure o, v⟩ : Firing α) = x
  have hxf : x.closure.f = l.f o := hx ▸ rfl
  have hxo : x.closure.o = o := hx ▸ rfl
  have hxd : x.closure.npm = l.npm := hx ▸ rfl
  have hxv : x.value = v := hx ▸ rfl
  have hlast : x ∈ s.fired ++ [x] := List.mem_append_right _ (List.mem_singleton_self x)
  have hxc (f : Option Func) (hf : l.f o = f) : x.closure = ⟨f, o, l.npm⟩ := by
    subst hx hf
    rfl
  unfold Promises.fire
  dsimp only
  rw [hx, show (l.closure o).f = l.f o from rfl]
  cases hf : l.f o with
  | none =>
    have hlog : (s.logged x [] s.gathers).Flow (.settle l.npm) := by
      refine h.logged_same ?_ nofun nofun ?_
      · rw [firedUser, hxf, hf]
        rfl
      · unfold Made
        rw [hxf, hf, hxd]
        exact .inr rfl
    exact hlog.settle (hw.inside l hl).2 (.inl (.pass hlast (hxc none hf) hxv))
  | some f =>
    cases f with
    | user =>
      have hlog : (s.logged x [.user o l.npm] s.gathers).Flow .nothing := by
        refine h.logged_same ?_ (fun o' npm hu => ?_) (by simp) ?_
        · rw [firedUser, hxf, hf, if_pos rfl, hxd]
          rfl
        · cases List.mem_singleton.mp hu
          exact hxc _ hf
        · unfold Made
          rw [hxf, hf]
          trivial
      exact hlog
    | settle d o' =>
      have hlog : (s.logged x [.finish o l.npm] s.gathers).Flow (.settle d) := by
        refine h.logged_same ?_ (by simp) (fun o' npm hfin => ?_) ?_
        · rw [firedUser, hxf, hf]
          rfl
        · cases List.mem_singleton.mp hfin
          rw [hxf, hf]
          exact ⟨hxo, hxd, by simp, by simp⟩
        · unfold Made
          rw [hxf, hf, hxd, hxo]
          exact ⟨.inr rfl, .inr List.mem_cons_self⟩
      obtain ⟨rfl, hd⟩ := hlog.settle_lt (hx ▸ hw.push (t := .finish o l.npm) (by simp)) hl hf
      exact hlog.settle hd (.inl (.chain hlast (hxf.trans hf) hxv))
    | collect a i =>
      subst hx
      exact h.collect hw hl hf

-- ---------------------------------------------------------------------------
-- `then` and `fail`
-- ---------------------------------------------------------------------------

/-- The call of `then` or `fail` is the one that was owed. -/
def Pays (s : Promises α) (l : Link) : Owed → Prop
  | .nothing => True
  | .settle _ => False
  | .link d pm => l.pm = pm ∧ l.f = chain d
  | .loop a j => ∃ g : Gather α, s.gathers[a]? = some g ∧ g.members[j]? = some l.pm ∧ l.f = g.funcs a j

/-- No other link collects for the same member. -/
def Single (s : Promises α) (f : Outcome → Option Func) : Prop :=
  ∀ l ∈ s.links, ∀ a i, f .fulfilled = some (.collect a i) → l.f .fulfilled ≠ some (.collect a i)

theorem Flow.linked {l : Link} (h : s.Flow w) (hpay : s.Pays l w)
    (hpend : ∀ p : Promise α, s.pms[l.npm]? = some p → p.state = none)
    (hfresh : l.npm ∉ s.links.map Link.npm ++ s.gathers.map Gather.npm)
    (hsrc : ∀ o, s.Sourced l o) (hone : s.Single l.f) :
    Flow { s with links := s.links ++ [l] } .nothing := by
  have hlast : l ∈ s.links ++ [l] := List.mem_append_right _ (List.mem_singleton_self l)
  have hg : Grows s { s with links := s.links ++ [l] } :=
    ⟨.of_pms rfl, fun _ => id, fun _ => id, fun _ => id, fun _ => List.mem_append_left _,
      fun _ g hg => ⟨g, hg, .refl⟩⟩
  have hdone (d : Nat) (hd : s.Done w d) : Done { s with links := s.links ++ [l] } .nothing d := by
    rcases hd with hd | rfl
    · exact .inl hd
    · exact hpay.elim
  have hmap : (s.links ++ [l]).map Link.npm = s.links.map Link.npm ++ [l.npm] := by
    rw [List.map_append, List.map_singleton]
  refine ⟨h.blank, fun d p o hp ho => ?_, h.users, h.called, h.finishes,
    fun x hx => hg.made hdone (h.made x hx), fun d r hr => hg.gave hdone ?_ (h.returns d r hr),
    fun a g ha => hg.looped hdone ?_ (h.loops a g ha), h.results, fun l' hl' o => ?_, ?_, ?_, h.inside⟩
  · refine (h.due d p o hp ho).imp hg.due fun hno hd => ?_
    rcases hd with hd | hd
    · rw [hmap] at hd
      rcases List.mem_append.mp hd with hd | hd
      · exact hno (.inl hd)
      · rw [List.mem_singleton.mp hd] at hp
        cases ho.symm.trans (hpend p hp)
    · exact hno (.inr hd)
  · rintro d pm rfl
    exact .inl ⟨l, hlast, hpay.1, hpay.2⟩
  · rintro j rfl
    obtain ⟨g', hg', hm, hf⟩ := hpay
    cases ha.symm.trans hg'
    exact .inl ⟨l, hlast, hm, hf⟩
  · rcases List.mem_append.mp hl' with hl' | hl'
    · exact hg.sourced (h.sources l' hl' o)
    · rw [List.mem_singleton.mp hl']
      exact hg.sourced (hsrc o)
  · intro l₁ h₁ l₂ h₂ a i hf₁ hf₂
    rcases List.mem_append.mp h₁ with h₁ | h₁ <;> rcases List.mem_append.mp h₂ with h₂ | h₂
    · exact h.once l₁ h₁ l₂ h₂ a i hf₁ hf₂
    · rw [List.mem_singleton.mp h₂] at hf₂
      exact absurd hf₁ (hone l₁ h₁ a i hf₂)
    · rw [List.mem_singleton.mp h₁] at hf₁
      exact absurd hf₂ (hone l₂ h₂ a i hf₁)
    · rw [List.mem_singleton.mp h₁, List.mem_singleton.mp h₂]
  · rw [hmap, List.append_assoc]
    refine List.perm_middle.nodup_iff.mpr (List.nodup_cons.mpr ⟨hfresh, h.apart⟩)

theorem Flow.fresh (h : s.Flow w) (hw : s.Wired) :
    s.pms.length ∉ s.links.map Link.npm ++ s.gathers.map Gather.npm := by
  intro hm
  rcases List.mem_append.mp hm with hm | hm
  · exact hw.fresh hm
  · obtain ⟨g, hg, heq⟩ := List.mem_map.mp hm
    exact absurd heq (Nat.ne_of_lt (h.inside g hg).1)

/-- A call of `then` or `fail`. -/
theorem Flow.attach {f : Outcome → Option Func} (h : s.Flow w) (hw : s.Wired)
    (hpm : pm < s.pms.length) (hpay : s.Pays ⟨pm, s.pms.length, f⟩ w)
    (hsrc : ∀ o, s.Sourced ⟨pm, s.pms.length, f⟩ o) (hone : s.Single f) :
    (s.attach pm f).Flow .nothing := by
  obtain ⟨p, hp⟩ : ∃ p, s.pms[pm]? = some p := ⟨_, List.getElem?_eq_getElem hpm⟩
  have hnew : (s.pms ++ [Promise.new])[s.pms.length]? = some .new :=
    List.getElem?_concat_length
  have hlink : Flow { s with
      pms := s.pms ++ [.new], links := s.links ++ [⟨pm, s.pms.length, f⟩] } .nothing := by
    refine h.append.linked (l := ⟨pm, s.pms.length, f⟩) ?_ (fun q hq => ?_) (h.fresh hw) hsrc hone
    · exact hpay
    · cases hnew.symm.trans hq
      rfl
  unfold Promises.attach
  rw [hp]
  dsimp only
  split
  case h_1 ho =>
    have hset : Flow { s with
        pms := (s.pms ++ [Promise.new]).set pm { p with
          callbacks := fun o => p.callbacks o ++ [Link.closure ⟨pm, s.pms.length, f⟩ o] }
        links := s.links ++ [⟨pm, s.pms.length, f⟩] } .nothing := by
      refine hlink.repms (.set (Wired.getElem?_append hp) ho _ rfl) fun d q hq => ?_
      by_cases hd : d = pm
      · subst hd
        rw [List.getElem?_set_self (Wired.length_append hp).1] at hq
        cases hq
        exact .inl ⟨p, Wired.getElem?_append hp, rfl, rfl⟩
      · exact .inl ⟨q, (List.getElem?_set_ne (Ne.symm hd)).symm.trans hq, rfl, rfl⟩
    rw [List.set_append_left _ _ hpm] at hset
    exact hset
  case h_2 o ho =>
    exact hlink.fire (l := ⟨pm, s.pms.length, f⟩)
      (List.mem_append_right _ (List.mem_singleton_self _)) (hw.attachFired hp ho)

-- ---------------------------------------------------------------------------
-- Steps
-- ---------------------------------------------------------------------------

/-- What links that the program asks for carry. -/
theorem sourced_user {f : Outcome → Option Func} (hf : ∀ o, f o = none ∨ f o = some .user)
    (npm : Nat) (o : Outcome) : s.Sourced ⟨pm, npm, f⟩ o := by
  unfold Sourced
  rcases hf o with hf | hf <;> rw [show Link.f ⟨pm, npm, f⟩ o = f o from rfl, hf] <;> trivial

theorem single_user {f : Outcome → Option Func} (hf : ∀ a i, f .fulfilled ≠ some (.collect a i)) :
    s.Single f := fun _ _ a i hc => absurd hc (hf a i)

theorem Flow.attach_user {f : Outcome → Option Func} (h : s.Flow .nothing) (hw : s.Wired)
    (hpm : pm < s.pms.length) (hf : ∀ o, f o = none ∨ f o = some .user) :
    (s.attach pm f).Flow .nothing := by
  refine h.attach hw hpm trivial (sourced_user hf _) (single_user fun a i hc => ?_)
  rcases hf .fulfilled with hf | hf <;> cases hf.symm.trans hc

theorem Flow.gather (h : s.Flow .nothing) (hw : s.Wired) {race : Bool} {members : List Nat}
    (hne : race = false → members ≠ []) (hin : ∀ m ∈ members, m < s.pms.length) :
    (s.gather race members).Flow .nothing := by
  generalize hg : ({ race, npm := s.pms.length, members, idx := 0, size := members.length, results := List.replicate members.length none } : Gather α) = g
  have hgs {a : Nat} {k : Gather α} (hk : (s.gathers ++ [g])[a]? = some k) :
      s.gathers[a]? = some k ∨ a = s.gathers.length ∧ k = g := by
    rcases Nat.lt_or_ge a s.gathers.length with hlt | hge
    · exact .inl ((List.getElem?_append_left hlt).symm.trans hk)
    · have hlt := (List.getElem?_eq_some_iff.mp hk).1
      rw [List.length_append, List.length_singleton] at hlt
      obtain rfl : a = s.gathers.length := by omega
      exact .inr ⟨rfl, Option.some.inj (hk.symm.trans List.getElem?_concat_length)⟩
  have hstart : Flow { s with pms := s.pms ++ [.new], stack := .each s.gathers.length :: s.stack } .nothing :=
    h.append.push rfl (by simp)
  have hgrow : Grows { s with pms := s.pms ++ [.new], stack := .each s.gathers.length :: s.stack }
      (s.gather race members) := by
    refine ⟨.of_pms rfl, fun _ => id, fun _ => id, fun _ => id, fun _ => id, fun a k hk => ⟨k, ?_, .refl⟩⟩
    exact (List.getElem?_append_left (List.getElem?_eq_some_iff.mp hk).1).trans hk
  have hdone (d : Nat) (hd : Done { s with
      pms := s.pms ++ [.new], stack := .each s.gathers.length :: s.stack } .nothing d) :
      (s.gather race members).Done .nothing d := hd
  have hnew : (s.pms ++ [Promise.new])[s.pms.length]? = some .new := List.getElem?_concat_length
  have hgathers : (s.gather race members).gathers = s.gathers ++ [g] := hg ▸ rfl
  refine ⟨hstart.blank, fun d p o hp ho => ?_, hstart.users, hstart.called, hstart.finishes,
    fun x hx => hgrow.made hdone (hstart.made x hx),
    fun d r hr => hgrow.gave hdone nofun (hstart.returns d r hr), fun a k hk => ?_,
    fun a k i v hk hv => ?_, fun l hl o => hgrow.sourced (hstart.sources l hl o), hstart.once, ?_,
    fun k hk => ?_⟩
  · refine (hstart.due d p o hp ho).imp hgrow.due fun hno hd => ?_
    rcases hd with hd | hd
    · exact hno (.inl hd)
    · rw [hgathers, List.map_append, List.map_singleton] at hd
      rcases List.mem_append.mp hd with hd | hd
      · exact hno (.inr hd)
      · obtain rfl : d = s.pms.length := by
          rw [List.mem_singleton.mp hd, ← hg]
        cases hnew.symm.trans hp
        cases ho
  · rw [hgathers] at hk
    rcases hgs hk with hk | ⟨rfl, rfl⟩
    · exact hgrow.looped hdone nofun (hstart.loops a k hk)
    · subst hg
      refine ⟨Nat.zero_le _, .inr List.mem_cons_self, nofun, List.length_replicate, ?_, hne, fun hr hz => ?_⟩
      · show members.length = (List.replicate members.length none).countP Option.isNone
        rw [List.countP_replicate]
        rfl
      · exact absurd (List.eq_nil_of_length_eq_zero hz) (hne hr)
  · rw [hgathers] at hk
    rcases hgs hk with hk | ⟨rfl, rfl⟩
    · exact hstart.results a k i v hk hv
    · subst hg
      have hmem := List.mem_of_getElem? hv
      cases (List.mem_replicate.mp hmem).2
  · rw [hgathers, List.map_append, List.map_singleton, ← List.append_assoc]
    refine List.nodup_append'.mpr ⟨hstart.apart, List.nodup_singleton _, ?_⟩
    rw [← hg]
    exact List.disjoint_singleton.mpr (h.fresh hw)
  · rw [hgathers] at hk
    rcases List.mem_append.mp hk with hk | hk
    · exact hstart.inside k hk
    · rw [List.mem_singleton.mp hk, ← hg]
      have hlen : s.pms.length < (s.pms ++ [Promise.new (α := α)]).length := by
        rw [List.length_append]
        exact Nat.lt_succ_self _
      exact ⟨hlen, fun m hm => Nat.lt_trans (hin m hm) hlen⟩

theorem Flow.ret (h : s.Flow .nothing) (hw : s.Wired) {r : Returned α}
    (hok : s.Admits (.ret r)) : (s.ret r).Flow .nothing := by
  unfold Promises.ret
  split
  case h_2 => exact h
  case h_1 o npm stack hst =>
    obtain ⟨x, hx, hc⟩ := h.called o npm (by
      rw [frames, hst]
      exact List.mem_cons_self)
    have hlt : npm < s.pms.length := by
      obtain ⟨l, hl, _, _, _, _, rfl⟩ := hw.source hx
      have hd : l.npm = npm := congrArg Closure.npm hc
      exact hd ▸ (hw.inside l hl).2
    have hlast : (npm, r) ∈ s.returned ++ [(npm, r)] :=
      List.mem_append_right _ (List.mem_singleton_self _)
    have hpop (w : Owed) (hgave : s.Gave w npm r) :
        Flow { s with stack, returned := s.returned ++ [(npm, r)] } w := by
      refine h.pop hst rfl rfl (fun d r' hr => ?_) nofun nofun
      cases List.mem_singleton.mp hr
      exact hgave
    cases r with
    | void => exact (hpop (.settle npm) (.inr rfl)).settle hlt (.inl (.void hx hc hlast rfl))
    | value v => exact (hpop (.settle npm) (.inr rfl)).settle hlt (.inl (.value hx hc hlast))
    | promise pm =>
      refine (hpop (.link npm pm) (.inr rfl)).attach (hw.pop hst (fun _ => rfl) _ _) hok.2 ⟨rfl, rfl⟩
        (fun o => ⟨rfl, .inl hlast⟩) (single_user fun a i hc => ?_)
      cases hc

/-- The loop over the members takes the next one. -/
theorem Flow.advance (h : s.Flow .nothing) (hw : s.Wired) {i : Nat} {g : Gather α}
    (hg : s.gathers[i]? = some g) (hm : g.members[g.idx]? = some pm) :
    (Promises.attach { s with gathers := s.gathers.set i { g with idx := g.idx + 1 } } pm
      (g.funcs i g.idx)).Flow .nothing := by
  have hlt : i < s.gathers.length := (List.getElem?_eq_some_iff.mp hg).1
  have hmlt : g.idx < g.members.length := (List.getElem?_eq_some_iff.mp hm).1
  have hmem : g ∈ s.gathers := List.mem_of_getElem? hg
  have hself : (s.gathers.set i { g with idx := g.idx + 1 })[i]? = some { g with idx := g.idx + 1 } :=
    List.getElem?_set_self hlt
  have hother {b : Nat} (hb : b ≠ i) :
      (s.gathers.set i { g with idx := g.idx + 1 })[b]? = s.gathers[b]? :=
    List.getElem?_set_ne (Ne.symm hb)
  have hgoes : Goes g { g with idx := g.idx + 1 } :=
    ⟨rfl, rfl, rfl, Nat.le_succ _, fun _ _ => id, rfl⟩
  have hgs (b : Nat) (k : Gather α) (hk : s.gathers[b]? = some k) :
      ∃ k', (s.gathers.set i { g with idx := g.idx + 1 })[b]? = some k' ∧ Goes k k' := by
    by_cases hb : b = i
    · subst hb
      cases hg.symm.trans hk
      exact ⟨_, hself, hgoes⟩
    · exact ⟨k, (hother hb).trans hk, .refl⟩
  have hgrow : Grows s { s with gathers := s.gathers.set i { g with idx := g.idx + 1 } } :=
    ⟨.of_pms rfl, fun _ => id, fun _ => id, fun _ => id, fun _ => id, hgs⟩
  have hdone (d : Nat) (hd : s.Done .nothing d) :
      Done { s with gathers := s.gathers.set i { g with idx := g.idx + 1 } } (.loop i g.idx) d :=
    .inl (hd.resolve_right nofun)
  have hnpm : (s.gathers.set i { g with idx := g.idx + 1 }).map Gather.npm = s.gathers.map Gather.npm :=
    map_npm_set hg rfl
  have hflow : Flow { s with gathers := s.gathers.set i { g with idx := g.idx + 1 } } (.loop i g.idx) := by
    refine ⟨h.blank, fun d p o hp ho => ?_, h.users, h.called, h.finishes,
      fun x hx => hgrow.made hdone (h.made x hx), fun d r hr => hgrow.gave hdone nofun (h.returns d r hr),
      fun b k hk => ?_, fun b k j v hk hv => ?_, fun l hl o => hgrow.sourced (h.sources l hl o), h.once,
      ?_, fun k hk => ?_⟩
    · refine (h.due d p o hp ho).imp hgrow.due fun hno hd => hno (hd.imp id fun hd => ?_)
      rw [← hnpm]
      exact hd
    · by_cases hb : b = i
      · subst hb
        cases hself.symm.trans hk
        have hlg := hgrow.looped hdone nofun (h.loops b g hg)
        refine ⟨hmlt, ?_, fun j hj => ?_, hlg.length, hlg.size, hlg.nonempty, hlg.full⟩
        · exact .inr (hlg.loop.resolve_left (Nat.ne_of_lt hmlt))
        · rcases Nat.lt_succ_iff_lt_or_eq.mp hj with hj | rfl
          · exact hlg.linked j hj
          · exact .inr rfl
      · exact hgrow.looped hdone nofun (h.loops b k ((hother hb).symm.trans hk))
    · by_cases hb : b = i
      · subst hb
        cases hself.symm.trans hk
        exact h.results b g j v hg hv
      · exact h.results b k j v ((hother hb).symm.trans hk) hv
    · show (s.links.map Link.npm ++ (s.gathers.set i { g with idx := g.idx + 1 }).map Gather.npm).Nodup
      rw [hnpm]
      exact h.apart
    · rcases List.mem_or_eq_of_mem_set hk with hk | rfl
      · exact h.inside k hk
      · exact h.inside g hmem
  have hwire : Wired { s with gathers := s.gathers.set i { g with idx := g.idx + 1 } } :=
    hw.shuffle rfl rfl rfl (fun _ _ _ => id) fun _ => .refl _
  refine hflow.attach hwire ((h.inside g hmem).2 pm (List.mem_of_getElem? hm)) ⟨_, hself, hm, rfl⟩
    (fun o => ?_) fun l hl a j hf hf' => ?_
  · unfold Sourced
    cases o with
    | rejected => exact ⟨rfl, .inr ⟨i, _, g.idx, hself, rfl, Nat.lt_succ_self _, hm, nofun⟩⟩
    | fulfilled =>
      by_cases hr : g.race = true
      · have hf (npm : Nat) : Link.f ⟨pm, npm, g.funcs i g.idx⟩ .fulfilled =
            some (.settle g.npm .fulfilled) := if_pos hr
        rw [hf]
        exact ⟨rfl, .inr ⟨i, _, g.idx, hself, rfl, Nat.lt_succ_self _, hm, fun _ => hr⟩⟩
      · have hf (npm : Nat) : Link.f ⟨pm, npm, g.funcs i g.idx⟩ .fulfilled =
            some (.collect i g.idx) := if_neg hr
        rw [hf]
        exact ⟨rfl, _, hself, Bool.eq_false_iff.mpr hr, Nat.lt_succ_self _, hm⟩
  · have hji : a = i ∧ j = g.idx := by
      unfold Gather.funcs at hf
      dsimp only at hf
      split at hf
      · cases hf
      · cases hf
        exact ⟨rfl, rfl⟩
    obtain ⟨rfl, rfl⟩ := hji
    have hsrc := h.sources l hl .fulfilled
    unfold Sourced at hsrc
    rw [hf'] at hsrc
    obtain ⟨-, k, hk, -, hlt', -⟩ := hsrc
    cases hg.symm.trans hk
    exact Nat.lt_irrefl _ hlt'

theorem Flow.run (h : s.Flow .nothing) (hw : s.Wired) : s.run.Flow .nothing := by
  unfold Promises.run
  split
  · rename_i pm o stack hst
    have hpop : Flow { s with stack } .nothing :=
      h.pop hst (List.append_nil _).symm rfl nofun nofun nofun
    refine hpop.repms (.modify rfl) fun d p hp => .inl ?_
    rw [List.getElem?_modify] at hp
    obtain ⟨q, hq, rfl⟩ := Option.map_eq_some_iff.mp hp
    refine ⟨q, hq, ?_⟩
    split <;> exact ⟨rfl, rfl⟩
  · rename_i pm o c rest stack hst
    obtain ⟨p, hp, -⟩ := hw.busy pm o (c :: rest) (by rw [hst]; exact List.mem_cons_self)
    have hnext : Flow { s with stack := .trigger pm o rest :: stack } .nothing :=
      (h.pop hst (List.append_nil _).symm rfl nofun nofun nofun).push (t := .trigger pm o rest) rfl
        (by simp)
    have htaken := hw.taken hp hst
    obtain ⟨l, hl, p', o', hp', ho', heq⟩ := htaken.source
      (List.mem_append_right _ (List.mem_singleton_self _))
    dsimp only
    rw [hp]
    simp only [Firing.mk.injEq] at heq
    obtain ⟨rfl, rfl, -⟩ := heq
    exact hnext.fire hl htaken
  · rename_i o npm stack hst
    have hpop : Flow { s with stack } (.settle npm) := by
      refine h.pop hst (List.append_nil _).symm rfl nofun (fun o' npm' heq => ?_) nofun
      cases heq
      rfl
    obtain ⟨x, hx, hxo, hxd, hxn, hxu⟩ := h.finishes o npm (by
      rw [frames, hst]
      exact List.mem_cons_self)
    obtain ⟨l, hl, _, _, _, _, rfl⟩ := hw.source hx
    exact hpop.settle (hxd ▸ (hw.inside l hl).2) (.inl (.inner hx hxo hxd hxn hxu rfl))
  · rename_i i stack hst
    split
    · rename_i hg
      refine h.pop hst (List.append_nil _).symm rfl nofun nofun fun a g heq hg' => ?_
      cases heq
      cases hg.symm.trans hg'
    · rename_i g hg
      split
      · rename_i hm
        refine h.pop hst (List.append_nil _).symm rfl nofun nofun fun a g' heq hg' => ?_
        cases heq
        cases hg.symm.trans hg'
        exact Nat.le_antisymm (h.loops _ g hg).le (List.getElem?_eq_none_iff.mp hm)
      · rename_i pm hm
        exact h.advance hw hg hm
  · exact h

theorem Flow.step (h : s.Flow .nothing) (hw : s.Wired) {e : Use α} (hok : s.Admits e) (hown : s.Owns e) :
    (s.step e).Flow .nothing := by
  cases e with
  | new => exact h.append
  | settle pm o v => exact (h.owe (.settle pm)).settle hok.2 (.inr hown)
  | thenBoth pm => exact h.attach_user hw hok.2 fun _ => .inr rfl
  | thenOne pm => exact h.attach_user hw hok.2 fun o => by cases o <;> simp
  | fail pm => exact h.attach_user hw hok.2 fun o => by cases o <;> simp
  | all pms =>
    dsimp only [Promises.step, Promises.all]
    split
    · exact h
    · exact h.gather hw (fun _ => ‹_›) hok.2
  | race pms => exact h.gather hw nofun hok.2
  | ret r => exact h.ret hw hok
  | throw =>
    dsimp only [Promises.step, Promises.throw]
    split
    · rename_i o npm stack hst
      refine h.shuffle ?_
      rw [frames, hst]
      conv_rhs => rw [← List.takeWhile_append_dropWhile (p := (!·.isUser)) (l := stack)]
      rw [← List.cons_append, ← List.append_assoc]
      exact List.perm_append_comm.trans (.of_eq (List.append_assoc ..).symm)
    · exact h
  | run => exact h.run hw

theorem flow_init : (init : Promises α).Flow .nothing :=
  ⟨nofun, nofun, .nil, nofun, nofun, nofun, nofun, nofun, nofun, nofun, nofun, List.nodup_nil, nofun⟩

theorem flow_exec {es : List (Use α)}
    (hes : Run.Allowed step (fun s e => s.Admits e ∧ s.Owns e) init es) :
    (Run.exec step (init : Promises α) es).Wired ∧ (Run.exec step (init : Promises α) es).Flow .nothing :=
  hes.inv (I := fun s => s.Wired ∧ s.Flow .nothing) ⟨wired_init, flow_init⟩
    fun _ e h hok => ⟨h.1.step e, h.2.step h.1 hok.1 hok.2⟩

-- ---------------------------------------------------------------------------
-- When nothing is running
-- ---------------------------------------------------------------------------

def stateOf (s : Promises α) (pm : Nat) : Option Outcome := s.pms[pm]?.bind Promise.state

def valueOf (s : Promises α) (pm : Nat) (o : Outcome) : PmAny α :=
  (s.pms[pm]?.map fun p => p.value o).getD .empty

theorem stateOf_eq {p : Promise α} (hp : s.pms[d]? = some p) : s.stateOf d = p.state := by
  rw [stateOf, hp]
  rfl

theorem valueOf_eq {p : Promise α} (hp : s.pms[d]? = some p) : s.valueOf d o = p.value o := by
  rw [valueOf, hp]
  rfl

theorem stateOf_some (hd : s.stateOf d = some o) : ∃ p : Promise α, s.pms[d]? = some p ∧ p.state = some o :=
  Option.bind_eq_some_iff.mp hd

theorem settledAt_iff : s.SettledAt d ↔ s.stateOf d ≠ none := by
  constructor
  · rintro ⟨p, hp, hn⟩
    rwa [stateOf_eq hp]
  · intro hn
    obtain ⟨o, ho⟩ := Option.ne_none_iff_exists'.mp hn
    obtain ⟨p, hp, ho⟩ := stateOf_some ho
    exact ⟨p, hp, by rw [ho]; exact Option.some_ne_none o⟩

namespace Flow

variable (h : s.Flow .nothing) (hw : s.Wired)
include h

theorem link_ne {l : Link} {g : Gather α} (hl : l ∈ s.links) (hg : g ∈ s.gathers) : l.npm ≠ g.npm := by
  intro heq
  have hdis := (List.nodup_append'.mp h.apart).2.2
  exact hdis (List.mem_map_of_mem hl) (heq ▸ List.mem_map_of_mem hg)

theorem gather_unique {a b : Nat} {g g' : Gather α} (hg : s.gathers[a]? = some g)
    (hg' : s.gathers[b]? = some g') (heq : g.npm = g'.npm) : g = g' :=
  List.inj_on_of_nodup_map (List.nodup_append'.mp h.apart).2.1 (List.mem_of_getElem? hg)
    (List.mem_of_getElem? hg') heq

theorem settled (hd : s.Done .nothing d) : s.stateOf d ≠ none := settledAt_iff.mp (hd.resolve_right nofun)

include hw

/-- What has run for a settled promise has done what it is there for. -/
theorem fired_made {l : Link} (hq : s.Quiet) (hl : l ∈ s.links) (ho : s.stateOf l.pm = some o) :
    ∃ x ∈ s.fired, x.closure = l.closure o ∧ s.Made .nothing x := by
  obtain ⟨p, hp, ho⟩ := stateOf_some ho
  have hx : ⟨l.pm, l.closure o, p.value o⟩ ∈ s.firedFor l.npm := by
    rw [hw.firedFor_settled hl hp ho hq]
    exact List.mem_singleton_self _
  exact ⟨_, (List.mem_filter.mp hx).1, rfl, h.made _ (List.mem_filter.mp hx).1⟩

theorem settles {l : Link} {o' : Outcome} (hq : s.Quiet) (hl : l ∈ s.links)
    (ho : s.stateOf l.pm = some o) (hf : l.f o = some (.settle d o')) : s.stateOf d ≠ none := by
  obtain ⟨x, -, hc, hmade⟩ := h.fired_made hw hq hl ho
  unfold Made at hmade
  rw [hc, show (l.closure o).f = l.f o from rfl, hf] at hmade
  exact h.settled hmade.1

/-- A lambda that settles comes from a promise that was returned, or from a member. -/
theorem chained {x : Firing α} (hx : x ∈ s.fired) (hf : x.closure.f = some (.settle d o)) :
    ∃ pm, s.stateOf pm = some o ∧ s.valueOf pm o = x.value ∧ ((d, .promise pm) ∈ s.returned ∨
      ∃ (a : Nat) (g : Gather α), s.gathers[a]? = some g ∧ g.npm = d ∧ pm ∈ g.members ∧
        (o = .fulfilled → g.race = true)) := by
  obtain ⟨l, hl, p, o', hp, ho, rfl⟩ := hw.source hx
  have hsrc := h.sources l hl o'
  unfold Sourced at hsrc
  rw [show l.f o' = _ from hf] at hsrc
  obtain ⟨rfl, hsrc⟩ := hsrc
  refine ⟨l.pm, (stateOf_eq hp).trans ho, valueOf_eq hp, hsrc.imp_right ?_⟩
  rintro ⟨a, g, j, hg, hd, -, hm, hr⟩
  exact ⟨a, g, hg, hd, List.mem_of_getElem? hm, hr⟩

end Flow

/-- What a callback that has run settles its promise to. -/
def Leads (s : Promises α) (x : Firing α) (o : Outcome) (v : PmAny α) : Prop :=
  match x.closure.f with
  | none => x.closure.o = o ∧ v = x.value
  | some .user => ∃ r, (x.closure.npm, r) ∈ s.returned ∧
    match r with
    | .void => x.closure.o = o ∧ v = .empty
    | .value u => x.closure.o = o ∧ v = u
    | .promise pm => s.stateOf pm = some o ∧ v = s.valueOf pm o
  | some _ => x.closure.o = o ∧ v = .empty

namespace Flow

variable (h : s.Flow .nothing) (hw : s.Wired)
include h hw

theorem leads {l : Link} (hl : l ∈ s.links) (ho : s.stateOf l.npm = some o) :
    ∃ x ∈ s.firedFor l.npm, s.Leads x o (s.valueOf l.npm o) := by
  obtain ⟨p, hp, ho⟩ := stateOf_some ho
  rw [valueOf_eq hp]
  have hder : s.Derived l.npm := .inl (List.mem_map_of_mem hl)
  have hmem {x : Firing α} (hx : x ∈ s.fired) (hd : x.closure.npm = l.npm) : x ∈ s.firedFor l.npm :=
    List.mem_filter.mpr ⟨hx, decide_eq_true hd⟩
  have hdue := (h.due l.npm p o hp ho).resolve_right (not_not_intro hder)
  cases hdue with
  | @pass x hx hc hv =>
    refine ⟨x, hmem hx (by rw [hc]), ?_⟩
    unfold Leads
    rw [hc]
    exact ⟨rfl, hv.symm⟩
  | @chain x hx hf hv =>
    obtain ⟨pm, hpm, hval, hr | ⟨a, g, hg, hd, -⟩⟩ := h.chained hw hx hf
    · obtain ⟨-, -, -, y, hy, hyf⟩ := h.returned_lt hw hr
      refine ⟨y, hy, ?_⟩
      have hd : y.closure.npm = l.npm := of_decide_eq_true (List.mem_filter.mp hy).2
      unfold Leads
      rw [hyf, hd]
      exact ⟨_, hr, hpm, hv.symm.trans hval.symm⟩
    · exact absurd hd.symm (h.link_ne hl (List.mem_of_getElem? hg))
  | @inner x hx hxo hd hn hu hv =>
    refine ⟨x, hmem hx hd, ?_⟩
    unfold Leads
    split
    · exact absurd ‹_› hn
    · exact absurd ‹_› hu
    · exact ⟨hxo, hv⟩
  | @void x hx hc hr hv =>
    refine ⟨x, hmem hx (by rw [hc]), ?_⟩
    unfold Leads
    rw [hc]
    exact ⟨.void, hr, rfl, hv⟩
  | @value x hx hc hr =>
    refine ⟨x, hmem hx (by rw [hc]), ?_⟩
    unfold Leads
    rw [hc]
    exact ⟨.value _, hr, rfl, rfl⟩
  | @all a g hg hd => exact absurd hd.symm (h.link_ne hl (List.mem_of_getElem? hg))

/-- A function has returned once. -/
theorem returned_one {l : Link} (hq : s.Quiet) (hl : l ∈ s.links) (ho : s.stateOf l.pm = some o)
    (hf : l.f o = some .user) : ∃ r, s.returned.filter (·.1 = l.npm) = [(l.npm, r)] := by
  obtain ⟨p, hp, ho⟩ := stateOf_some ho
  have husers := h.users
  rw [frames, hq.1, hq.2, List.append_nil, List.filterMap_nil, List.nil_append] at husers
  have hcount : (s.fired.filterMap firedUser).count l.npm = 1 := by
    have hone := hw.firedFor_settled hl hp ho hq
    have hfilter : s.fired.countP (fun x => ((firedUser x).map (· == l.npm)).getD false) =
        (s.firedFor l.npm).countP (fun x => ((firedUser x).map (· == l.npm)).getD false) := by
      rw [firedFor, List.countP_filter]
      refine List.countP_congr fun x _ => ?_
      unfold firedUser
      split <;> simp
    rw [List.count, List.countP_filterMap, hfilter, hone, List.countP_singleton, firedUser,
      if_pos (show (l.closure o).f = some .user from hf)]
    simp [Link.closure]
  have hlen : (s.returned.filter (·.1 = l.npm)).length = 1 := by
    rw [← List.countP_eq_length_filter, ← hcount, ← husers.count_eq, List.count, List.countP_map]
    refine List.countP_congr fun x _ => ?_
    simp
  obtain ⟨⟨d, r⟩, hr⟩ := List.length_eq_one_iff.mp hlen
  have hmem : (d, r) ∈ s.returned.filter (·.1 = l.npm) := by
    rw [hr]
    exact List.mem_singleton_self _
  obtain rfl : d = l.npm := of_decide_eq_true (List.mem_filter.mp hmem).2
  exact ⟨r, hr⟩

end Flow

end

end Promises

section
variable {α : Type} (s : Promises α)

/-- What the promise of a call of `then` or `fail` is settled to. -/
def Link.Settles (l : Link) : Prop :=
  match s.stateOf l.pm with
  | none => s.stateOf l.npm = none
  | some o =>
    match l.f o with
    | none => s.stateOf l.npm = some o ∧ s.valueOf l.npm o = s.valueOf l.pm o
    | some .user => ∃ r, s.returned.filter (·.1 = l.npm) = [(l.npm, r)] ∧
      match r with
      | .void => s.stateOf l.npm = some o ∧ s.valueOf l.npm o = .empty
      | .value v => s.stateOf l.npm = some o ∧ s.valueOf l.npm o = v
      | .promise pm => s.stateOf l.npm = s.stateOf pm ∧
        ∀ o, s.stateOf pm = some o → s.valueOf l.npm o = s.valueOf pm o
    | some _ => s.stateOf l.npm = some o ∧ s.valueOf l.npm o = .empty

/-- What the promise of `all` or `race` is settled to. -/
def Gather.Settles (g : Gather α) : Prop :=
  if g.race then
    match s.stateOf g.npm with
    | none => ∀ pm ∈ g.members, s.stateOf pm = none
    | some o => ∃ pm ∈ g.members, s.stateOf pm = some o ∧ s.valueOf g.npm o = s.valueOf pm o
  else
    match s.stateOf g.npm with
    | none => (∃ pm ∈ g.members, s.stateOf pm = none) ∧ ∀ pm ∈ g.members, s.stateOf pm ≠ some .rejected
    | some .fulfilled => (∀ pm ∈ g.members, s.stateOf pm = some .fulfilled) ∧
      s.valueOf g.npm .fulfilled = .values (g.members.map fun pm => s.valueOf pm .fulfilled)
    | some .rejected => ∃ pm ∈ g.members,
      s.stateOf pm = some .rejected ∧ s.valueOf g.npm .rejected = s.valueOf pm .rejected

end

namespace Promises

section
variable {α : Type} {s : Promises α} {o : Outcome}

namespace Flow

variable (h : s.Flow .nothing) (hw : s.Wired) (hq : s.Quiet)
include h hw hq

theorem link_settles {l : Link} (hl : l ∈ s.links) : l.Settles s := by
  unfold Link.Settles
  have hleads {o' : Outcome} (ho' : s.stateOf l.npm = some o') : ∃ o p, s.pms[l.pm]? = some p ∧
      p.state = some o ∧ s.Leads ⟨l.pm, l.closure o, p.value o⟩ o' (s.valueOf l.npm o') := by
    obtain ⟨x, hx, hlead⟩ := h.leads hw hl ho'
    obtain ⟨p, o, hp, ho, rfl⟩ := hw.firedFor_eq hl hx
    exact ⟨o, p, hp, ho, hlead⟩
  cases ho : s.stateOf l.pm with
  | none =>
    by_contra hn
    obtain ⟨o', ho'⟩ := Option.ne_none_iff_exists'.mp hn
    obtain ⟨o, p, hp, hps, -⟩ := hleads ho'
    cases ho.symm.trans ((stateOf_eq hp).trans hps)
  | some o =>
    obtain ⟨x, hx, hc, hmade⟩ := h.fired_made hw hq hl ho
    have hlead {o' : Outcome} (ho' : s.stateOf l.npm = some o') :
        s.Leads ⟨l.pm, l.closure o, s.valueOf l.pm o⟩ o' (s.valueOf l.npm o') := by
      obtain ⟨o₁, p, hp, hps, hlead⟩ := hleads ho'
      cases ho.symm.trans ((stateOf_eq hp).trans hps)
      rwa [valueOf_eq hp]
    have hframes : s.frames = [] := by
      rw [frames, hq.1, hq.2]
      rfl
    unfold Made at hmade
    unfold Leads at hlead
    rw [hc, hframes, show (l.closure o).f = l.f o from rfl] at hmade
    rw [show Closure.f (Firing.closure ⟨l.pm, l.closure o, s.valueOf l.pm o⟩) = l.f o from rfl] at hlead
    dsimp only
    cases hf : l.f o with
    | none =>
      rw [hf] at hmade hlead
      obtain ⟨o', ho'⟩ := Option.ne_none_iff_exists'.mp (h.settled hmade)
      obtain ⟨rfl, hv⟩ := hlead ho'
      exact ⟨ho', hv⟩
    | some f =>
      rw [hf] at hmade hlead
      have hlib (hd : s.Done .nothing l.npm ∨ PmTask.finish o l.npm ∈ [])
          (hf' : ∀ {o'}, s.stateOf l.npm = some o' → o = o' ∧ s.valueOf l.npm o' = .empty) :
          s.stateOf l.npm = some o ∧ s.valueOf l.npm o = .empty := by
        obtain ⟨o', ho'⟩ := Option.ne_none_iff_exists'.mp (h.settled (hd.resolve_right List.not_mem_nil))
        obtain ⟨rfl, hv⟩ := hf' ho'
        exact ⟨ho', hv⟩
      cases f with
      | settle d o₁ => exact hlib hmade.2 hlead
      | collect a i => exact hlib hmade.2 hlead
      | user =>
        obtain ⟨r, hr⟩ := h.returned_one hw hq hl ho hf
        have hin {r'} (hr' : (l.npm, r') ∈ s.returned) : r' = r := by
          have hmem : (l.npm, r') ∈ s.returned.filter (·.1 = l.npm) :=
            List.mem_filter.mpr ⟨hr', decide_eq_true rfl⟩
          rw [hr] at hmem
          exact congrArg Prod.snd (List.mem_singleton.mp hmem)
        have hmem : (l.npm, r) ∈ s.returned := by
          refine (List.mem_filter (p := (·.1 = l.npm)).mp ?_).1
          rw [hr]
          exact List.mem_singleton_self _
        have hgave := h.returns l.npm r hmem
        refine ⟨r, hr, ?_⟩
        cases r with
        | void | value v =>
          obtain ⟨o', ho'⟩ := Option.ne_none_iff_exists'.mp (h.settled hgave)
          obtain ⟨r', hr', hm⟩ := hlead ho'
          cases hin hr'
          obtain ⟨rfl, hv⟩ := hm
          exact ⟨ho', hv⟩
        | promise pm =>
          have hpm {o'} (ho' : s.stateOf l.npm = some o') :
              s.stateOf pm = some o' ∧ s.valueOf l.npm o' = s.valueOf pm o' := by
            obtain ⟨r', hr', hm⟩ := hlead ho'
            cases hin hr'
            exact hm
          have heq : s.stateOf l.npm = s.stateOf pm := by
            cases ho₁ : s.stateOf pm with
            | none =>
              by_contra hn
              obtain ⟨o', ho'⟩ := Option.ne_none_iff_exists'.mp hn
              cases ho₁.symm.trans (hpm ho').1
            | some o₁ =>
              obtain ⟨l', hl', rfl, hf'⟩ := hgave.resolve_right nofun
              have hn := h.settles hw hq hl' ho₁ (congrFun hf' o₁)
              obtain ⟨o', ho'⟩ := Option.ne_none_iff_exists'.mp hn
              rw [ho', ← ho₁, (hpm ho').1]
          exact ⟨heq, fun o₁ ho₁ => (hpm (heq.trans ho₁)).2⟩

/-- The members of `all` or `race` are linked. -/
theorem member {a : Nat} {g : Gather α} (hg : s.gathers[a]? = some g) {j pm : Nat}
    (hm : g.members[j]? = some pm) : ∃ l ∈ s.links, l.pm = pm ∧ l.f = g.funcs a j := by
  have hlg := h.loops a g hg
  have hidx : g.idx = g.members.length := hlg.loop.resolve_right (by
    rw [frames, hq.1, hq.2]
    exact List.not_mem_nil)
  obtain ⟨l, hl, hl', hf⟩ := (hlg.linked j (hidx ▸ (List.getElem?_eq_some_iff.mp hm).1)).resolve_right nofun
  exact ⟨l, hl, Option.some.inj (hl'.symm.trans hm), hf⟩

theorem member_settles {a : Nat} {g : Gather α} (hg : s.gathers[a]? = some g) {pm : Nat}
    (hm : pm ∈ g.members) (ho : s.stateOf pm = some o) (hr : o = .fulfilled → g.race = true) :
    s.stateOf g.npm ≠ none := by
  obtain ⟨j, hj⟩ := List.getElem?_of_mem hm
  obtain ⟨l, hl, rfl, hf⟩ := h.member hw hq hg hj
  have hfunc : l.f o = some (.settle g.npm o) := by
    rw [hf]
    cases o with
    | fulfilled => exact if_pos (hr rfl)
    | rejected => rfl
  exact h.settles hw hq hl ho hfunc

omit hq in
/-- What is collected is the result of a member. -/
theorem result {a i : Nat} {g : Gather α} {v : PmAny α} (hg : s.gathers[a]? = some g)
    (hr : g.results[i]? = some (some v)) :
    ∃ pm, g.members[i]? = some pm ∧ s.stateOf pm = some .fulfilled ∧ s.valueOf pm .fulfilled = v := by
  obtain ⟨x, hx, hf, hv⟩ := h.results a g i v hg hr
  obtain ⟨l, hl, p, o, hp, ho, rfl⟩ := hw.source hx
  have hsrc := h.sources l hl o
  unfold Sourced at hsrc
  rw [show l.f o = _ from hf] at hsrc
  obtain ⟨rfl, g', hg', -, -, hm⟩ := hsrc
  cases hg.symm.trans hg'
  exact ⟨l.pm, hm, (stateOf_eq hp).trans ho, (valueOf_eq hp).trans hv⟩

omit hq in
theorem gather_due {a : Nat} {g : Gather α} (hg : s.gathers[a]? = some g) (ho : s.stateOf g.npm = some o) :
    (∃ pm ∈ g.members, s.stateOf pm = some o ∧ s.valueOf g.npm o = s.valueOf pm o ∧
      (o = .fulfilled → g.race = true)) ∨
    g.race = false ∧ o = .fulfilled ∧ none ∉ g.results ∧
      s.valueOf g.npm o = .values (g.results.map fun r => r.getD .empty) := by
  have hmem := List.mem_of_getElem? hg
  obtain ⟨p, hp, ho⟩ := stateOf_some ho
  rw [valueOf_eq hp]
  have hder : s.Derived g.npm := .inr (List.mem_map_of_mem hmem)
  have hno {x : Firing α} (hx : x ∈ s.fired) : x.closure.npm ≠ g.npm := by
    obtain ⟨l, hl, _, _, _, _, rfl⟩ := hw.source hx
    exact h.link_ne hl hmem
  have hdue := (h.due g.npm p o hp ho).resolve_right (not_not_intro hder)
  cases hdue with
  | pass hx hc => exact absurd (by rw [hc]) (hno hx)
  | inner hx _ hd => exact absurd hd (hno hx)
  | void hx hc => exact absurd (by rw [hc]) (hno hx)
  | value hx hc => exact absurd (by rw [hc]) (hno hx)
  | chain hx hf hv =>
    obtain ⟨pm, hpm, hval, hr | ⟨b, g', hg', hd, hm, hrace⟩⟩ := h.chained hw hx hf
    · obtain ⟨l, hl, heq, -⟩ := h.returned_lt hw hr
      exact absurd heq (h.link_ne hl hmem)
    · cases h.gather_unique hg' hg hd
      exact .inl ⟨pm, hm, hpm, hv.symm.trans hval.symm, hrace⟩
  | all hg' hd hr hof hall hv =>
    cases h.gather_unique hg' hg hd
    exact .inr ⟨hr, hof, hall, hv⟩

/-- `all` is not kept waiting. -/
theorem all_settles {a : Nat} {g : Gather α} (hg : s.gathers[a]? = some g) (hrace : g.race = false)
    (hall : ∀ pm ∈ g.members, s.stateOf pm = some .fulfilled) : s.stateOf g.npm ≠ none := by
  have hlg := h.loops a g hg
  refine h.settled (hlg.full hrace ?_)
  rw [hlg.size]
  refine List.countP_eq_zero.mpr fun r hr hn => ?_
  obtain ⟨i, hi⟩ := List.getElem?_of_mem hr
  have hilt : i < g.members.length := hlg.length ▸ (List.getElem?_eq_some_iff.mp hi).1
  obtain ⟨l, hl, hpm, hf⟩ := h.member hw hq hg (List.getElem?_eq_getElem hilt)
  obtain ⟨x, -, hc, hmade⟩ := h.fired_made hw hq hl (hpm ▸ hall _ (List.getElem_mem hilt))
  have hcol : l.f .fulfilled = some (.collect a i) := by
    rw [hf]
    exact if_neg (by rw [hrace]; exact Bool.false_ne_true)
  unfold Made at hmade
  rw [hc, show (l.closure .fulfilled).f = l.f .fulfilled from rfl, hcol] at hmade
  obtain ⟨⟨g', hg', hres⟩, -⟩ := hmade
  cases hg.symm.trans hg'
  cases hi.symm.trans hres
  cases hn

theorem gather_settles {g : Gather α} (hg : g ∈ s.gathers) : g.Settles s := by
  obtain ⟨a, hg⟩ := List.getElem?_of_mem hg
  unfold Gather.Settles
  cases hrace : g.race with
  | true =>
    rw [if_pos rfl]
    cases ho : s.stateOf g.npm with
    | none =>
      intro pm hm
      by_contra hn
      obtain ⟨o, ho'⟩ := Option.ne_none_iff_exists'.mp hn
      exact h.member_settles hw hq hg hm ho' (fun _ => hrace) ho
    | some o =>
      rcases h.gather_due hw hg ho with ⟨pm, hm, hpm, hv, -⟩ | ⟨hr, -⟩
      · exact ⟨pm, hm, hpm, hv⟩
      · cases hrace.symm.trans hr
  | false =>
    rw [if_neg Bool.false_ne_true]
    have hrej (pm : Nat) (hm : pm ∈ g.members) (hpm : s.stateOf pm = some .rejected) :
        s.stateOf g.npm ≠ none := h.member_settles hw hq hg hm hpm nofun
    cases ho : s.stateOf g.npm with
    | none =>
      have hno (pm : Nat) (hm : pm ∈ g.members) : s.stateOf pm ≠ some .rejected :=
        fun hpm => hrej pm hm hpm ho
      refine ⟨?_, hno⟩
      by_contra hnone
      push Not at hnone
      refine h.all_settles hw hq hg hrace (fun pm hm => ?_) ho
      obtain ⟨o, hpm⟩ := Option.ne_none_iff_exists'.mp (hnone pm hm)
      cases o with
      | fulfilled => exact hpm
      | rejected => exact absurd hpm (hno pm hm)
    | some o =>
      cases o with
      | rejected =>
        rcases h.gather_due hw hg ho with ⟨pm, hm, hpm, hv, -⟩ | ⟨-, hof, -⟩
        · exact ⟨pm, hm, hpm, hv⟩
        · cases hof
      | fulfilled =>
        rcases h.gather_due hw hg ho with ⟨pm, hm, hpm, hv, hr⟩ | ⟨-, -, hall, hv⟩
        · cases hrace.symm.trans (hr rfl)
        · have hres (i : Nat) (hi : i < g.members.length) :
              s.stateOf g.members[i] = some .fulfilled ∧
                g.results[i]? = some (some (s.valueOf g.members[i] .fulfilled)) := by
            have hlt : i < g.results.length := (h.loops a g hg).length ▸ hi
            cases hr : g.results[i] with
            | none => exact absurd (hr ▸ List.getElem_mem hlt) hall
            | some v =>
              have hr : g.results[i]? = some (some v) := (List.getElem?_eq_getElem hlt).trans (congrArg some hr)
              obtain ⟨pm, hpm, hst, rfl⟩ := h.result hw hg hr
              obtain rfl := Option.some.inj ((List.getElem?_eq_getElem hi).symm.trans hpm)
              exact ⟨hst, hr⟩
          refine ⟨fun pm hm => ?_, ?_⟩
          · obtain ⟨i, hi, rfl⟩ := List.getElem_of_mem hm
            exact (hres i hi).1
          · rw [hv]
            refine congrArg PmAny.values (List.ext_getElem (by simp [(h.loops a g hg).length]) fun i hi hi' => ?_)
            rw [List.length_map] at hi hi'
            rw [List.getElem_map, List.getElem_map]
            have hr := (hres i hi').2
            rw [List.getElem?_eq_getElem hi] at hr
            rw [Option.some.inj hr]
            rfl

end Flow

end

end Promises

/-- When nothing is running, and no exception has left anything undone, a promise made
by `then` or `fail` has been settled by its callback, with what the callback returned,
and as the promise it returned where it returned one; that of `all` is fulfilled with
the results in the order of its members if and only if they are all fulfilled, and
rejected if and only if one is; and that of `race` is settled as one of its members. -/
theorem promises_settle {α : Type} (es : List (Use α))
    (hes : Run.Allowed Promises.step (fun s e => s.Admits e ∧ s.Owns e) Promises.init es)
    (hq : (Run.exec Promises.step Promises.init es).Quiet) :
    (∀ l ∈ (Run.exec Promises.step Promises.init es).links,
      l.Settles (Run.exec Promises.step Promises.init es)) ∧
    ∀ g ∈ (Run.exec Promises.step Promises.init es).gathers,
      g.Settles (Run.exec Promises.step Promises.init es) := by
  obtain ⟨hw, h⟩ := Promises.flow_exec hes
  exact ⟨fun l => h.link_settles hw hq, fun g => h.gather_settles hw hq⟩

/-- Two promises, `all` of them, and a function on its result that returns the first. -/
def someUses : List (Use Nat) :=
  [.new, .new, .all [0, 1], .run, .run, .run, .thenOne 2, .settle 0 .fulfilled (some (.val 7)),
    .run, .run, .run, .run, .settle 1 .fulfilled (some (.val 8)), .run, .run, .ret (.promise 0)] ++
  List.replicate 7 .run

theorem promises_settle_someUses :
    (Run.exec Promises.step Promises.init someUses).links.map (fun l => (l.pm, l.npm)) =
      [(0, 3), (1, 4), (2, 5), (0, 6)] ∧
    (∀ l ∈ (Run.exec Promises.step Promises.init someUses).links,
      l.Settles (Run.exec Promises.step Promises.init someUses)) ∧
    ∀ g ∈ (Run.exec Promises.step Promises.init someUses).gathers,
      g.Settles (Run.exec Promises.step Promises.init someUses) :=
  ⟨by decide +kernel, promises_settle someUses (by decide +kernel) (by decide +kernel)⟩

end HotStuffTx
