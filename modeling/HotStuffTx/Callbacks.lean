import HotStuffTx.Promise

/-!
# Callbacks run once

A callback waits on a pending promise, or in the loop of a settled one, or has run:
the three are an exact account of the calls of `then` and `fail`.
-/

set_option linter.unusedSectionVars false

namespace HotStuffTx

/-- The callbacks of `pm` that a loop has left to run. -/
def PmTask.queue (pm : Nat) : PmTask → List Closure
  | .trigger q _ rest => if q = pm then rest else []
  | _ => []

namespace Promises

variable {α : Type} {s s' : Promises α} {pm npm : Nat} {o : Outcome} {p : Promise α}

def linksOf (s : Promises α) (pm : Nat) : List Link := s.links.filter (·.pm = pm)

def firedOf (s : Promises α) (pm : Nat) : List (Firing α) := s.fired.filter (·.pm = pm)

def queued (s : Promises α) (pm : Nat) : List Closure :=
  (s.stack ++ s.dropped).flatMap (PmTask.queue pm)

/-- Where the callbacks are. -/
structure Wired (s : Promises α) : Prop where
  inside : ∀ l ∈ s.links, l.pm < s.pms.length ∧ l.npm < s.pms.length
  nodup : (s.links.map Link.npm).Nodup
  busy : ∀ pm o rest, .trigger pm o rest ∈ s.stack ++ s.dropped →
    ∃ p, s.pms[pm]? = some p ∧ p.state = some o
  waiting : ∀ pm p, s.pms[pm]? = some p → p.state = none →
    (∀ o, p.callbacks o = (s.linksOf pm).map (·.closure o)) ∧ s.firedOf pm = [] ∧ s.queued pm = []
  moved : ∀ pm p o, s.pms[pm]? = some p → p.state = some o →
    ((s.firedOf pm).map Firing.closure ++ s.queued pm).Perm ((s.linksOf pm).map (·.closure o))
  given : ∀ x ∈ s.fired, ∃ p, s.pms[x.pm]? = some p ∧ x.value = p.value x.closure.o

/-- Promises stay, and settled ones stay as they are. -/
def Stable (s s' : Promises α) : Prop :=
  ∀ (pm : Nat) (p : Promise α), s.pms[pm]? = some p → ∃ p' : Promise α, s'.pms[pm]? = some p' ∧
    ∀ o, p.state = some o → p'.state = some o ∧ p'.value = p.value

theorem Stable.of_pms (h : s'.pms = s.pms) : Stable s s' :=
  fun _ p hp => ⟨p, h ▸ hp, fun _ ho => ⟨ho, rfl⟩⟩

theorem Stable.refl : Stable s s := .of_pms rfl

theorem Stable.trans {s'' : Promises α} (h : Stable s s') (h' : Stable s' s'') : Stable s s'' := by
  intro pm p hp
  obtain ⟨p', hp', hk⟩ := h pm p hp
  obtain ⟨p'', hp'', hk'⟩ := h' pm p' hp'
  refine ⟨p'', hp'', fun o ho => ?_⟩
  obtain ⟨ho', hv⟩ := hk o ho
  exact ⟨(hk' o ho').1, (hk' o ho').2.trans hv⟩

/-- A promise that is replaced only while it is pending. -/
theorem Stable.set (hp : s.pms[pm]? = some p) (hn : p.state = none) (q : Promise α)
    (h : s'.pms = s.pms.set pm q) : Stable s s' := by
  intro x px hx
  rw [h]
  by_cases hxp : x = pm
  · subst hxp
    obtain rfl : px = p := Option.some.inj (hx.symm.trans hp)
    refine ⟨q, List.getElem?_set_self (List.getElem?_eq_some_iff.mp hp).1, fun o ho => ?_⟩
    rw [hn] at ho
    cases ho
  · exact ⟨px, (List.getElem?_set_ne (Ne.symm hxp)).trans hx, fun _ ho => ⟨ho, rfl⟩⟩

theorem Stable.append (l : List (Promise α)) (h : s'.pms = s.pms ++ l) : Stable s s' :=
  fun _ p hp => ⟨p, by rw [h, List.getElem?_append_left (List.getElem?_eq_some_iff.mp hp).1, hp],
    fun _ ho => ⟨ho, rfl⟩⟩

namespace Wired

variable (h : s.Wired)
include h

/-- The frames may change place. -/
theorem shuffle (hp : s'.pms = s.pms) (hl : s'.links = s.links) (hf : s'.fired = s.fired)
    (hb : ∀ pm o rest, .trigger pm o rest ∈ s'.stack ++ s'.dropped →
      .trigger pm o rest ∈ s.stack ++ s.dropped)
    (hq : ∀ pm, (s'.queued pm).Perm (s.queued pm)) : s'.Wired where
  inside := by
    rw [hl, hp]
    exact h.inside
  nodup := hl ▸ h.nodup
  busy pm o rest hmem := hp ▸ h.busy pm o rest (hb pm o rest hmem)
  waiting pm p hpm hn := by
    obtain ⟨hc, hfn, hqn⟩ := h.waiting pm p (hp ▸ hpm) hn
    refine ⟨fun o => ?_, ?_, ?_⟩
    · rw [linksOf, hl]
      exact hc o
    · rw [firedOf, hf]
      exact hfn
    · exact List.Perm.eq_nil (hqn ▸ hq pm)
  moved pm p o hpm ho := by
    rw [linksOf, hl, firedOf, hf]
    exact ((hq pm).append_left _).trans (h.moved pm p o (hp ▸ hpm) ho)
  given := by
    rw [hf, hp]
    exact h.given

theorem push {t : PmTask} (ht : ∀ pm o rest, t ≠ .trigger pm o rest) : (s.push t).Wired := by
  refine h.shuffle rfl rfl rfl (fun pm o rest hm => ?_) fun pm => ?_
  · exact (List.mem_cons.mp hm).resolve_left fun heq => ht pm o rest heq.symm
  · have hnil : t.queue pm = [] := by
      cases t with
      | trigger q o rest => exact absurd rfl (ht q o rest)
      | _ => rfl
    show (t.queue pm ++ s.queued pm).Perm _
    rw [hnil, List.nil_append]

theorem settle (v : Option (PmAny α)) : (s.settle pm o v).Wired := by
  unfold Promises.settle
  cases hp : s.pms[pm]? with
  | none => exact h
  | some p =>
    dsimp only
    split
    case isFalse => exact h
    case isTrue hn =>
      obtain ⟨hcall, hfnil, hqnil⟩ := h.waiting pm p hp hn
      have hstate : (p.settle o v).state = some o := rfl
      generalize p.settle o v = q at hstate ⊢
      have hself : (s.pms.set pm q)[pm]? = some q :=
        List.getElem?_set_self (List.getElem?_eq_some_iff.mp hp).1
      have hne {x} (hx : x ≠ pm) : (s.pms.set pm q)[x]? = s.pms[x]? :=
        List.getElem?_set_ne (Ne.symm hx)
      have hqueue (x : Nat) : queued { s with
          pms := s.pms.set pm q, stack := .trigger pm o (p.callbacks o) :: s.stack } x =
          (if pm = x then p.callbacks o else []) ++ s.queued x := rfl
      refine ⟨fun l hl => ?_, h.nodup, fun x o' rest hm => ?_, fun x px hx hxn => ?_,
        fun x px o' hx ho => ?_, fun x hx => ?_⟩
      · rw [List.length_set]
        exact h.inside l hl
      · by_cases hxp : x = pm
        · subst hxp
          rcases List.mem_cons.mp hm with heq | hm
          · cases heq
            exact ⟨q, hself, hstate⟩
          · obtain ⟨px, hpx, ho⟩ := h.busy x o' rest hm
            rw [hp] at hpx
            cases hpx
            rw [hn] at ho
            cases ho
        · rcases List.mem_cons.mp hm with heq | hm
          · cases heq
            exact absurd rfl hxp
          · obtain ⟨px, hpx, ho⟩ := h.busy x o' rest hm
            exact ⟨px, (hne hxp).trans hpx, ho⟩
      · have hxp : x ≠ pm := by
          rintro rfl
          cases hself.symm.trans hx
          cases hstate.symm.trans hxn
        obtain ⟨hc, hf, hqx⟩ := h.waiting x px ((hne hxp).symm.trans hx) hxn
        refine ⟨hc, hf, ?_⟩
        rw [hqueue, if_neg (Ne.symm hxp), hqx]
        rfl
      · rw [hqueue]
        by_cases hxp : x = pm
        · subst hxp
          cases hself.symm.trans hx
          cases hstate.symm.trans ho
          show ((s.firedOf x).map Firing.closure ++ _).Perm ((s.linksOf x).map _)
          rw [if_pos rfl, hqnil, hfnil, List.append_nil, List.map_nil, List.nil_append, hcall]
        · rw [if_neg (Ne.symm hxp), List.nil_append]
          exact h.moved x px o' ((hne hxp).symm.trans hx) ho
      · obtain ⟨px, hpx, hv⟩ := h.given x hx
        have hxp : x.pm ≠ pm := by
          intro heq
          have hmem : x ∈ s.firedOf pm := List.mem_filter.mpr ⟨hx, by simpa using heq⟩
          rw [hfnil] at hmem
          cases hmem
        exact ⟨px, (hne hxp).trans hpx, hv⟩

theorem collect {i idx : Nat} (v : PmAny α) : (s.collect i idx v).Wired := by
  unfold Promises.collect
  split
  · exact h
  · have h' {gs : List (Gather α)} : Wired { s with gathers := gs } :=
      h.shuffle rfl rfl rfl (fun _ _ _ => id) fun _ => .refl _
    dsimp only
    split
    · exact h'.settle _
    · exact h'

omit h in
/-- What a callback does, once it is recorded. -/
theorem fire {c : Closure} {v : PmAny α}
    (h : Wired { s with fired := s.fired ++ [⟨pm, c, v⟩] }) : (s.fire pm c v).Wired := by
  unfold Promises.fire
  dsimp only
  split
  · exact h.settle _
  · exact h.push (by simp)
  · exact (h.push (by simp)).settle _
  · exact (h.push (by simp)).collect _

/-- Making a promise changes nothing for the others. -/
theorem append : Wired { s with pms := s.pms ++ [.new] } := by
  have hold {x : Nat} {px : Promise α} (hx : s.pms[x]? = some px) :
      (s.pms ++ [.new])[x]? = some px := by
    rw [List.getElem?_append_left (List.getElem?_eq_some_iff.mp hx).1, hx]
  have hlt {l : Link} (hl : l ∈ s.links) : l.pm < (s.pms ++ [Promise.new]).length ∧
      l.npm < (s.pms ++ [Promise.new]).length := by
    rw [List.length_append]
    exact ⟨Nat.lt_add_right _ (h.inside l hl).1, Nat.lt_add_right _ (h.inside l hl).2⟩
  have hfresh : s.linksOf s.pms.length = [] ∧ s.firedOf s.pms.length = [] ∧
      s.queued s.pms.length = [] := by
    refine ⟨List.filter_eq_nil_iff.mpr fun l hl => ?_, List.filter_eq_nil_iff.mpr fun x hx => ?_,
      List.flatMap_eq_nil_iff.mpr fun t ht => ?_⟩
    · simpa using Nat.ne_of_lt (h.inside l hl).1
    · obtain ⟨px, hpx, -⟩ := h.given x hx
      simpa using Nat.ne_of_lt (List.getElem?_eq_some_iff.mp hpx).1
    · cases t with
      | trigger q o rest =>
        obtain ⟨px, hpx, -⟩ := h.busy q o rest ht
        exact if_neg (Nat.ne_of_lt (List.getElem?_eq_some_iff.mp hpx).1)
      | _ => rfl
  have hcases {x : Nat} {px : Promise α} (hx : (s.pms ++ [.new])[x]? = some px) :
      s.pms[x]? = some px ∨ x = s.pms.length ∧ px = .new := by
    by_cases hlt : x < s.pms.length
    · exact .inl ((List.getElem?_append_left hlt).symm.trans hx)
    · rw [List.getElem?_append_right (Nat.le_of_not_lt hlt)] at hx
      obtain ⟨hz, heq⟩ := List.getElem?_eq_some_iff.mp hx
      have hz : x - s.pms.length = 0 := Nat.lt_one_iff.mp hz
      refine .inr ⟨by omega, ?_⟩
      simpa [hz] using heq.symm
  refine ⟨fun l hl => hlt hl, h.nodup, fun x o rest hm => ?_, fun x px hx hn => ?_,
    fun x px o hx ho => ?_, fun x hx => ?_⟩
  · obtain ⟨px, hpx, ho⟩ := h.busy x o rest hm
    exact ⟨px, hold hpx, ho⟩
  · rcases hcases hx with hx | ⟨rfl, rfl⟩
    · exact h.waiting x px hx hn
    · exact ⟨fun o => (congrArg (List.map fun l : Link => l.closure o) hfresh.1).symm, hfresh.2⟩
  · rcases hcases hx with hx | ⟨rfl, rfl⟩
    · exact h.moved x px o hx ho
    · cases ho
  · obtain ⟨px, hpx, hv⟩ := h.given x hx
    exact ⟨px, hold hpx, hv⟩

/-- The next callback of a loop is taken off it and recorded. -/
theorem taken {c : Closure} {rest : List Closure} {stack : List PmTask} (hp : s.pms[pm]? = some p)
    (hst : s.stack = .trigger pm o (c :: rest) :: stack) :
    Wired { s with
      stack := .trigger pm o rest :: stack
      fired := s.fired ++ [⟨pm, c, p.value o⟩] } := by
  have hstate : p.state = some o := by
    obtain ⟨px, hpx, ho⟩ := h.busy pm o (c :: rest) (by rw [hst]; exact List.mem_cons_self)
    cases hp.symm.trans hpx
    exact ho
  have hqueued (x : Nat) : s.queued x = (if pm = x then [c] else []) ++
      queued { s with stack := .trigger pm o rest :: stack } x := by
    simp only [queued, hst, List.cons_append, List.flatMap_cons, PmTask.queue]
    split <;> rfl
  have hfired (x : Nat) : firedOf { s with fired := s.fired ++ [⟨pm, c, p.value o⟩] } x =
      s.firedOf x ++ if pm = x then [⟨pm, c, p.value o⟩] else [] := by
    simp only [firedOf, List.filter_append, List.filter_singleton]
    congr 1
    by_cases hx : pm = x <;> simp [hx]
  have hc : c.o = o := by
    have hmem : c ∈ s.queued pm := by
      rw [hqueued, if_pos rfl]
      exact List.mem_cons_self
    have hmem' := (h.moved pm p o hp hstate).subset (List.mem_append_right _ hmem)
    obtain ⟨l, -, rfl⟩ := List.mem_map.mp hmem'
    rfl
  refine ⟨h.inside, h.nodup, fun x o' rest' hm => ?_, fun x px hx hn => ?_, fun x px o' hx ho => ?_,
    fun x hx => ?_⟩
  · rcases List.mem_cons.mp hm with heq | hm
    · cases heq
      exact ⟨p, hp, hstate⟩
    · exact h.busy x o' rest' (by rw [hst]; exact List.mem_cons_of_mem _ hm)
  · have hne : pm ≠ x := by
      rintro rfl
      cases hp.symm.trans hx
      cases hstate.symm.trans hn
    obtain ⟨hcall, hf, hq⟩ := h.waiting x px hx hn
    rw [hqueued, if_neg hne, List.nil_append] at hq
    refine ⟨hcall, ?_, hq⟩
    have := hfired x
    rw [if_neg hne, List.append_nil, hf] at this
    exact this
  · have hperm := h.moved x px o' hx ho
    rw [hqueued] at hperm
    refine List.Perm.trans ?_ hperm
    have := hfired x
    unfold firedOf at this ⊢
    rw [this]
    by_cases hne : pm = x
    · rw [if_pos hne, if_pos hne, List.map_append, List.append_assoc]
      exact .refl _
    · rw [if_neg hne, if_neg hne, List.append_nil, List.nil_append]
      exact .refl _
  · rcases List.mem_append.mp hx with hx | hx
    · exact h.given x hx
    · rw [List.mem_singleton.mp hx]
      exact ⟨p, hp, by rw [hc]⟩

omit h in
theorem linksOf_append (l : Link) (x : Nat) : linksOf { s with links := s.links ++ [l] } x =
    s.linksOf x ++ if l.pm = x then [l] else [] := by
  simp only [linksOf, List.filter_append, List.filter_singleton]
  congr 1
  by_cases hx : l.pm = x <;> simp [hx]

section
variable {l : Link} (hl : l.pm < s.pms.length ∧ l.npm < s.pms.length)
  (hfresh : l.npm ∉ s.links.map Link.npm)
include hl hfresh

omit h hl in
theorem nodup_append (h : (s.links.map Link.npm).Nodup) :
    ((s.links ++ [l]).map Link.npm).Nodup := by
  rw [List.map_append, List.map_singleton]
  exact List.nodup_append'.mpr ⟨h, List.nodup_singleton _, List.disjoint_singleton.mpr hfresh⟩

/-- On a pending promise both callbacks wait. -/
theorem linked (hp : s.pms[l.pm]? = some p) (hn : p.state = none) : Wired { s with
    pms := s.pms.set l.pm { p with callbacks := fun o => p.callbacks o ++ [l.closure o] }
    links := s.links ++ [l] } := by
  obtain ⟨hcall, hfnil, hqnil⟩ := h.waiting l.pm p hp hn
  have hself (q : Promise α) : (s.pms.set l.pm q)[l.pm]? = some q := List.getElem?_set_self hl.1
  have hne {x} (hx : x ≠ l.pm) (q : Promise α) : (s.pms.set l.pm q)[x]? = s.pms[x]? :=
    List.getElem?_set_ne (Ne.symm hx)
  have hlinks (x : Nat) := linksOf_append (s := s) l x
  refine ⟨fun l' hl' => ?_, nodup_append hfresh h.nodup, fun x o rest hm => ?_,
    fun x px hx hxn => ?_, fun x px o hx ho => ?_, fun x hx => ?_⟩
  · rw [List.length_set]
    rcases List.mem_append.mp hl' with hl' | hl'
    · exact h.inside l' hl'
    · rw [List.mem_singleton.mp hl']
      exact hl
  · obtain ⟨px, hpx, ho⟩ := h.busy x o rest hm
    have hxp : x ≠ l.pm := by
      rintro rfl
      cases hp.symm.trans hpx
      cases hn.symm.trans ho
    exact ⟨px, (hne hxp _).trans hpx, ho⟩
  · by_cases hxp : x = l.pm
    · subst hxp
      cases (hself _).symm.trans hx
      refine ⟨fun o => ?_, hfnil, hqnil⟩
      refine Eq.trans ?_ (congrArg (List.map fun l : Link => l.closure o) (hlinks l.pm)).symm
      rw [if_pos rfl, List.map_append, List.map_singleton]
      exact congrArg (· ++ [l.closure o]) (hcall o)
    · obtain ⟨hc, hf, hq⟩ := h.waiting x px ((hne hxp _).symm.trans hx) hxn
      refine ⟨fun o => (hc o).trans ?_, hf, hq⟩
      refine Eq.trans ?_ (congrArg (List.map fun l : Link => l.closure o) (hlinks x)).symm
      rw [if_neg (Ne.symm hxp), List.append_nil]
  · have hxp : x ≠ l.pm := by
      rintro rfl
      cases (hself _).symm.trans hx
      cases hn.symm.trans ho
    refine (h.moved x px o ((hne hxp _).symm.trans hx) ho).trans (.of_eq ?_)
    refine Eq.trans ?_ (congrArg (List.map fun l : Link => l.closure o) (hlinks x)).symm
    rw [if_neg (Ne.symm hxp), List.append_nil]
  · obtain ⟨px, hpx, hv⟩ := h.given x hx
    have hxp : x.pm ≠ l.pm := by
      intro heq
      have hmem : x ∈ s.firedOf l.pm := List.mem_filter.mpr ⟨hx, by simpa using heq⟩
      rw [hfnil] at hmem
      cases hmem
    exact ⟨px, (hne hxp _).trans hpx, hv⟩

/-- On a settled promise the callback runs at once. -/
theorem linkedFired (hp : s.pms[l.pm]? = some p) (ho : p.state = some o) : Wired { s with
    links := s.links ++ [l]
    fired := s.fired ++ [⟨l.pm, l.closure o, p.value o⟩] } := by
  have hlinks (x : Nat) := linksOf_append (s := s) l x
  have hfired (x : Nat) : firedOf { s with fired := s.fired ++ [⟨l.pm, l.closure o, p.value o⟩] } x =
      s.firedOf x ++ if l.pm = x then [⟨l.pm, l.closure o, p.value o⟩] else [] := by
    simp only [firedOf, List.filter_append, List.filter_singleton]
    congr 1
    by_cases hx : l.pm = x <;> simp [hx]
  refine ⟨fun l' hl' => ?_, nodup_append hfresh h.nodup, h.busy,
    fun x px hx hxn => ?_, fun x px o' hx ho' => ?_, fun x hx => ?_⟩
  · rcases List.mem_append.mp hl' with hl' | hl'
    · exact h.inside l' hl'
    · rw [List.mem_singleton.mp hl']
      exact hl
  · have hxp : l.pm ≠ x := by
      rintro rfl
      cases hp.symm.trans hx
      cases ho.symm.trans hxn
    obtain ⟨hc, hf, hq⟩ := h.waiting x px hx hxn
    refine ⟨fun o => (hc o).trans ?_, ?_, hq⟩
    · refine Eq.trans ?_ (congrArg (List.map fun l : Link => l.closure o) (hlinks x)).symm
      rw [if_neg hxp, List.append_nil]
    · refine (hfired x).trans ?_
      rw [hf, if_neg hxp]
      rfl
  · have hperm := h.moved x px o' hx ho'
    have hf := congrArg (List.map Firing.closure) (hfired x)
    have hk := congrArg (List.map fun l : Link => l.closure o') (hlinks x)
    refine List.Perm.trans (.of_eq (congrArg (· ++ s.queued x) hf)) (List.Perm.trans ?_ (.of_eq hk.symm))
    by_cases hxp : l.pm = x
    · subst hxp
      cases hp.symm.trans hx
      cases ho.symm.trans ho'
      rw [if_pos rfl, if_pos rfl, List.map_append, List.map_append, List.map_singleton,
        List.map_singleton, List.append_assoc]
      refine List.Perm.trans ?_ (hperm.append_right _)
      rw [List.append_assoc]
      exact List.perm_append_comm.append_left _
    · rw [if_neg hxp, if_neg hxp, List.append_nil, List.append_nil]
      exact hperm
  · rcases List.mem_append.mp hx with hx | hx
    · exact h.given x hx
    · rw [List.mem_singleton.mp hx]
      exact ⟨p, hp, rfl⟩

end

theorem fresh : s.pms.length ∉ s.links.map Link.npm := by
  intro hm
  obtain ⟨l, hl, heq⟩ := List.mem_map.mp hm
  exact absurd heq (Nat.ne_of_lt (h.inside l hl).2)

omit h in
theorem length_append (hp : s.pms[pm]? = some p) :
    pm < (s.pms ++ [Promise.new (α := α)]).length ∧
      s.pms.length < (s.pms ++ [Promise.new (α := α)]).length := by
  rw [List.length_append]
  exact ⟨Nat.lt_succ_of_lt (List.getElem?_eq_some_iff.mp hp).1, Nat.lt_succ_self _⟩

omit h in
theorem getElem?_append (hp : s.pms[pm]? = some p) : (s.pms ++ [Promise.new])[pm]? = some p :=
  (List.getElem?_append_left (List.getElem?_eq_some_iff.mp hp).1).trans hp

theorem attachFired {f : Outcome → Option Func} (hp : s.pms[pm]? = some p) (ho : p.state = some o) :
    Wired { s with
      pms := s.pms ++ [.new]
      links := s.links ++ [⟨pm, s.pms.length, f⟩]
      fired := s.fired ++ [⟨pm, Link.closure ⟨pm, s.pms.length, f⟩ o, p.value o⟩] } :=
  h.append.linkedFired (l := ⟨pm, s.pms.length, f⟩) (length_append hp) h.fresh (getElem?_append hp) ho

theorem attach (f : Outcome → Option Func) : (s.attach pm f).Wired := by
  unfold Promises.attach
  cases hp : s.pms[pm]? with
  | none => exact h
  | some p =>
    dsimp only
    split
    · have := h.append.linked (l := ⟨pm, s.pms.length, f⟩) (length_append hp) h.fresh
        (getElem?_append hp) ‹_›
      rwa [List.set_append_left _ _ (List.getElem?_eq_some_iff.mp hp).1] at this
    · exact .fire (h.attachFired hp ‹_›)

/-- Frames may be moved from the stack to what is left undone. -/
theorem throw : s.throw.Wired := by
  unfold Promises.throw
  split
  · rename_i o npm stack hst
    have hperm : (stack.dropWhile (!·.isUser) ++ (s.dropped ++ .user o npm :: stack.takeWhile (!·.isUser))).Perm
        (s.stack ++ s.dropped) := by
      rw [hst]
      conv_rhs => rw [← List.takeWhile_append_dropWhile (p := (!·.isUser)) (l := stack)]
      rw [← List.cons_append, ← List.append_assoc]
      exact List.perm_append_comm.trans (.of_eq (List.append_assoc ..).symm)
    exact h.shuffle rfl rfl rfl (fun _ _ _ hm => hperm.subset hm) fun pm =>
      hperm.flatMap_right (PmTask.queue pm)
  · exact h

/-- A frame without callbacks comes off the stack. -/
theorem pop {t : PmTask} {stack : List PmTask} (hst : s.stack = t :: stack)
    (ht : ∀ pm, t.queue pm = []) (rs : List (Nat × Returned α)) (gs : List (Gather α)) :
    Wired { s with stack, returned := rs, gathers := gs } := by
  refine h.shuffle rfl rfl rfl (fun x o rest hm => ?_) fun x => ?_
  · rw [hst]
    exact List.mem_cons_of_mem _ hm
  · have hq : s.queued x = t.queue x ++ (stack ++ s.dropped).flatMap (PmTask.queue x) := by
      rw [queued, hst]
      rfl
    rw [hq, ht, List.nil_append]
    exact .refl _

/-- The callbacks of a settled promise are cleared. -/
theorem clear {f : Promise α → Outcome → List Closure} (hp : ∀ p, s.pms[pm]? = some p → p.state ≠ none) :
    Wired { s with pms := s.pms.modify pm fun p => { p with callbacks := f p } } := by
  have hget {x : Nat} {px : Promise α} (hx : (s.pms.modify pm fun p => { p with callbacks := f p })[x]? = some px) :
      ∃ p₀, s.pms[x]? = some p₀ ∧ px.state = p₀.state ∧ px.value = p₀.value ∧ (x ≠ pm → px = p₀) := by
    rw [List.getElem?_modify] at hx
    obtain ⟨p₀, hp₀, rfl⟩ := Option.map_eq_some_iff.mp hx
    refine ⟨p₀, hp₀, ?_⟩
    split
    · exact ⟨rfl, rfl, fun hne => absurd ‹_› (Ne.symm hne)⟩
    · exact ⟨rfl, rfl, fun _ => rfl⟩
  have hnew {x : Nat} {p₀ : Promise α} (hx : s.pms[x]? = some p₀) :
      ∃ px, (s.pms.modify pm fun p => { p with callbacks := f p })[x]? = some px ∧
        px.state = p₀.state ∧ px.value = p₀.value := by
    rw [List.getElem?_modify, hx]
    refine ⟨_, rfl, ?_⟩
    split <;> exact ⟨rfl, rfl⟩
  refine ⟨fun l hl => ?_, h.nodup, fun x o rest hm => ?_, fun x px hx hn => ?_, fun x px o hx ho => ?_,
    fun x hx => ?_⟩
  · rw [List.length_modify]
    exact h.inside l hl
  · obtain ⟨p₀, hp₀, ho⟩ := h.busy x o rest hm
    obtain ⟨px, hpx, hs, -⟩ := hnew hp₀
    exact ⟨px, hpx, hs.trans ho⟩
  · obtain ⟨p₀, hp₀, hs, -, hsame⟩ := hget hx
    have hne : x ≠ pm := by
      rintro rfl
      exact hp p₀ hp₀ (hs.symm.trans hn)
    rw [hsame hne] at hn ⊢
    exact h.waiting x p₀ hp₀ hn
  · obtain ⟨p₀, hp₀, hs, -⟩ := hget hx
    exact h.moved x p₀ o hp₀ (hs.symm.trans ho)
  · obtain ⟨p₀, hp₀, hv⟩ := h.given x hx
    obtain ⟨px, hpx, -, hvx⟩ := hnew hp₀
    exact ⟨px, hpx, hv.trans (congrFun hvx _).symm⟩

theorem ret (r : Returned α) : (s.ret r).Wired := by
  unfold Promises.ret
  split
  · rename_i o npm stack hst
    have h' := h.pop hst (fun _ => rfl) (s.returned ++ [(npm, r)]) s.gathers
    cases r with
    | void => exact h'.settle none
    | value v => exact h'.settle _
    | promise pm => exact h'.attach _
  · exact h

theorem run : s.run.Wired := by
  unfold Promises.run
  split
  · rename_i pm o stack hst
    obtain ⟨p, hp, ho⟩ := h.busy pm o [] (by rw [hst]; exact List.mem_cons_self)
    refine (h.pop hst (fun x => by simp [PmTask.queue]) s.returned s.gathers).clear ?_
    intro p' hp'
    cases hp.symm.trans hp'
    rw [ho]
    exact Option.some_ne_none o
  · rename_i pm o c rest stack hst
    obtain ⟨p, hp, -⟩ := h.busy pm o (c :: rest) (by rw [hst]; exact List.mem_cons_self)
    dsimp only
    rw [hp]
    exact .fire (h.taken hp hst)
  · rename_i o npm stack hst
    exact (h.pop hst (fun _ => rfl) s.returned s.gathers).settle none
  · rename_i i stack hst
    have hpop : Wired { s with stack } := h.pop hst (fun _ => rfl) s.returned s.gathers
    split
    · exact hpop
    · rename_i g _
      split
      · exact hpop
      · have h' : Wired { s with gathers := s.gathers.set i { g with idx := g.idx + 1 } } :=
          h.shuffle rfl rfl rfl (fun _ _ _ => id) fun _ => .refl _
        exact h'.attach _
  · exact h

theorem gather (race : Bool) (members : List Nat) : (s.gather race members).Wired :=
  h.append.push (t := .each s.gathers.length) (by simp) |>.shuffle rfl rfl rfl (fun _ _ _ => id) fun _ => .refl _

theorem step (e : Use α) : (s.step e).Wired := by
  cases e with
  | new => exact h.append
  | settle pm o v => exact h.settle v
  | thenBoth pm => exact h.attach _
  | thenOne pm => exact h.attach _
  | fail pm => exact h.attach _
  | all pms =>
    dsimp only [Promises.step, Promises.all]
    split
    · exact h
    · exact h.gather false pms
  | race pms => exact h.gather true pms
  | ret r => exact h.ret r
  | throw => exact h.throw
  | run => exact h.run

end Wired

namespace Stable

theorem settle (h : Stable s s') (v : Option (PmAny α)) : Stable s (s'.settle pm o v) := by
  refine h.trans ?_
  unfold Promises.settle
  split
  · exact .refl
  · split
    · exact .set ‹_› ‹_› _ rfl
    · exact .refl

theorem collect (h : Stable s s') {i idx : Nat} (v : PmAny α) : Stable s (s'.collect i idx v) := by
  unfold Promises.collect
  split
  · exact h
  · have hgs {gs : List (Gather α)} : Stable s { s' with gathers := gs } := h.trans (.of_pms rfl)
    dsimp only
    split
    · exact hgs.settle _
    · exact hgs

theorem fire (h : Stable s s') (c : Closure) (v : PmAny α) : Stable s (s'.fire pm c v) := by
  have hlog : Stable s { s' with fired := s'.fired ++ [⟨pm, c, v⟩] } := h.trans (.of_pms rfl)
  have hpush (t : PmTask) : Stable s (push { s' with fired := s'.fired ++ [⟨pm, c, v⟩] } t) :=
    h.trans (.of_pms rfl)
  unfold Promises.fire
  dsimp only
  split
  · exact hlog.settle _
  · exact hpush _
  · exact (hpush _).settle _
  · exact (hpush _).collect _

theorem attach (h : Stable s s') (f : Outcome → Option Func) : Stable s (s'.attach pm f) := by
  unfold Promises.attach
  cases hp : s'.pms[pm]? with
  | none => exact h
  | some p =>
    dsimp only
    split
    · have hset : Stable s' { s' with
          pms := s'.pms.set pm { p with
            callbacks := fun o => p.callbacks o ++ [Link.closure ⟨pm, s'.pms.length, f⟩ o] } } :=
        .set hp ‹_› _ rfl
      exact (h.trans hset).trans (.append [.new] rfl)
    · have happ : Stable s' { s' with
          pms := s'.pms ++ [.new], links := s'.links ++ [⟨pm, s'.pms.length, f⟩] } := .append [.new] rfl
      exact (h.trans happ).fire _ _

theorem ret (r : Returned α) : Stable s (s.ret r) := by
  unfold Promises.ret
  split
  · rename_i o npm stack hst
    have hpop : Stable s { s with stack, returned := s.returned ++ [(npm, r)] } := .of_pms rfl
    cases r with
    | void => exact hpop.settle none
    | value v => exact hpop.settle _
    | promise pm => exact hpop.attach _
  · exact .refl

/-- Callbacks that change do not matter. -/
theorem modify {f : Promise α → Outcome → List Closure}
    (h : s'.pms = s.pms.modify pm fun p => { p with callbacks := f p }) : Stable s s' := by
  intro x px hx
  refine ⟨_, (congrArg (·[x]?) h).trans ((List.getElem?_modify ..).trans (by rw [hx]; rfl)), fun o ho => ?_⟩
  split <;> exact ⟨ho, rfl⟩

theorem run : Stable s s.run := by
  unfold Promises.run
  split
  · exact .modify rfl
  · rename_i pm o c rest stack hst
    have hpop : Stable s { s with stack := .trigger pm o rest :: stack } := .of_pms rfl
    exact hpop.fire _ _
  · rename_i o npm stack hst
    have hpop : Stable s { s with stack } := .of_pms rfl
    exact hpop.settle none
  · rename_i i stack hst
    split
    · exact .of_pms rfl
    · rename_i g hg
      split
      · exact .of_pms rfl
      · have hidx : Stable s { s with gathers := s.gathers.set i { g with idx := g.idx + 1 } } := .of_pms rfl
        exact hidx.attach _
  · exact .refl

theorem step (e : Use α) : Stable s (s.step e) := by
  cases e with
  | new => exact .append [.new] rfl
  | settle pm o v => exact refl.settle v
  | thenBoth pm => exact refl.attach _
  | thenOne pm => exact refl.attach _
  | fail pm => exact refl.attach _
  | all pms =>
    dsimp only [Promises.step, Promises.all]
    split
    · exact .refl
    · exact .append [.new] rfl
  | race pms => exact .append [.new] rfl
  | ret r => exact ret r
  | throw =>
    refine .of_pms ?_
    dsimp only [Promises.step, Promises.throw]
    split <;> rfl
  | run => exact run

end Stable

theorem wired_init : (init : Promises α).Wired :=
  ⟨nofun, List.nodup_nil, nofun, nofun, nofun, nofun⟩

/-- The callbacks of the call that made `npm` that have run. -/
def firedFor (s : Promises α) (npm : Nat) : List (Firing α) := s.fired.filter (·.closure.npm = npm)

namespace Wired

variable (h : s.Wired)
include h

theorem link_unique {l l' : Link} (hl : l ∈ s.links) (hl' : l' ∈ s.links) (heq : l.npm = l'.npm) :
    l = l' := List.inj_on_of_nodup_map h.nodup hl hl' heq

theorem queued_nil (hq : s.Quiet) : s.queued pm = [] := by
  rw [queued, hq.1, hq.2]
  rfl

/-- What has run is the callback of a link, for the outcome of its promise. -/
theorem source {x : Firing α} (hx : x ∈ s.fired) : ∃ l ∈ s.links, ∃ p o,
    s.pms[l.pm]? = some p ∧ p.state = some o ∧ x = ⟨l.pm, l.closure o, p.value o⟩ := by
  obtain ⟨p, hp, hv⟩ := h.given x hx
  have hmem : x ∈ s.firedOf x.pm := List.mem_filter.mpr ⟨hx, by simp⟩
  cases ho : p.state with
  | none =>
    rw [(h.waiting x.pm p hp ho).2.1] at hmem
    cases hmem
  | some o =>
    have hmem' := (h.moved x.pm p o hp ho).subset
      (List.mem_append_left _ (List.mem_map_of_mem hmem))
    obtain ⟨l, hl, hc⟩ := List.mem_map.mp hmem'
    obtain ⟨hl, hdec⟩ := List.mem_filter.mp hl
    have hpm : l.pm = x.pm := of_decide_eq_true hdec
    clear hmem' hmem hdec
    refine ⟨l, hl, p, o, hpm ▸ hp, ho, ?_⟩
    obtain ⟨xpm, xc, xv⟩ := x
    dsimp only at hc hpm hv
    subst hc hpm
    exact congrArg (Firing.mk _ _) hv

theorem firedFor_eq {l : Link} (hl : l ∈ s.links) {x : Firing α} (hx : x ∈ s.firedFor l.npm) :
    ∃ p o, s.pms[l.pm]? = some p ∧ p.state = some o ∧ x = ⟨l.pm, l.closure o, p.value o⟩ := by
  obtain ⟨hx, hnpm⟩ := List.mem_filter.mp hx
  obtain ⟨l', hl', p, o, hp, ho, rfl⟩ := h.source hx
  obtain rfl := h.link_unique hl' hl (of_decide_eq_true hnpm)
  exact ⟨p, o, hp, ho, rfl⟩

/-- Of the callbacks of a link that have run or are queued there is one. -/
theorem count {l : Link} (hl : l ∈ s.links) (hp : s.pms[l.pm]? = some p) (ho : p.state = some o) :
    (s.firedFor l.npm).length + (s.queued l.pm).countP (·.npm = l.npm) = 1 := by
  have hperm := (h.moved l.pm p o hp ho).countP_eq (fun c => decide (c.npm = l.npm))
  rw [List.countP_append] at hperm
  have hlinks : ((s.linksOf l.pm).map fun l' => l'.closure o).countP (fun c => decide (c.npm = l.npm)) = 1 := by
    have hmap : ((s.linksOf l.pm).map fun l' => l'.closure o).countP (fun c => decide (c.npm = l.npm)) =
        ((s.linksOf l.pm).map Link.npm).count l.npm := by
      rw [List.count, List.countP_map, List.countP_map]
      exact List.countP_congr fun l' _ => by
        simp only [Function.comp_apply, Link.closure, decide_eq_true_eq, beq_iff_eq]
    rw [hmap]
    refine List.count_eq_one_of_mem (h.nodup.sublist (List.filter_sublist.map _)) ?_
    exact List.mem_map_of_mem (List.mem_filter.mpr ⟨hl, by simp⟩)
  have hfired : (s.firedFor l.npm).length =
      ((s.firedOf l.pm).map Firing.closure).countP (fun c => decide (c.npm = l.npm)) := by
    rw [List.countP_map, firedOf, List.countP_filter, firedFor, ← List.countP_eq_length_filter]
    refine List.countP_congr fun x hx => ?_
    simp only [Function.comp_apply, Bool.and_eq_true, decide_eq_true_eq]
    refine ⟨fun hnpm => ⟨hnpm, ?_⟩, And.left⟩
    obtain ⟨_, _, -, -, rfl⟩ := h.firedFor_eq hl (List.mem_filter.mpr ⟨hx, decide_eq_true hnpm⟩)
    rfl
  rw [hfired]
  exact hperm.trans hlinks

theorem firedFor_pending {l : Link} (hl : l ∈ s.links) (hp : s.pms[l.pm]? = some p)
    (hn : p.state = none) : s.firedFor l.npm = [] := by
  refine List.eq_nil_iff_forall_not_mem.mpr fun x hx => ?_
  obtain ⟨p', o, hp', ho, -⟩ := h.firedFor_eq hl hx
  cases hp.symm.trans hp'
  cases hn.symm.trans ho

theorem firedFor_settled {l : Link} (hl : l ∈ s.links) (hp : s.pms[l.pm]? = some p)
    (ho : p.state = some o) (hq : s.Quiet) : s.firedFor l.npm = [⟨l.pm, l.closure o, p.value o⟩] := by
  have hcount := h.count hl hp ho
  rw [h.queued_nil hq, List.countP_nil, Nat.add_zero] at hcount
  refine List.eq_replicate_iff.mpr ⟨hcount, fun x hx => ?_⟩
  obtain ⟨p', o', hp', ho', rfl⟩ := h.firedFor_eq hl hx
  cases hp.symm.trans hp'
  cases ho.symm.trans ho'
  rfl

end Wired

theorem wired_exec (es : List (Use α)) : (Run.exec step (init : Promises α) es).Wired := by
  have hall : Run.Allowed step (fun _ _ => True) (init : Promises α) es := Run.allowed_true
  exact hall.inv (I := Wired) wired_init fun _ e h _ => h.step e

end Promises

/-- A promise is settled once. Of the two functions given to a call of `then` or `fail`
at most one runs, and at most once, for the outcome of the promise and with its result
or reason; and when nothing is running and no exception has left anything undone, it
has run if and only if the promise is settled. -/
theorem callbacks_once {α : Type} (es : List (Use α)) :
    let s := Run.exec Promises.step (Promises.init : Promises α) es
    (∀ es', Promises.Stable s (Run.exec Promises.step s es')) ∧
    (∀ l ∈ s.links, (s.firedFor l.npm).length ≤ 1 ∧ ∀ x ∈ s.firedFor l.npm, ∃ p o,
      s.pms[l.pm]? = some p ∧ p.state = some o ∧ x = ⟨l.pm, l.closure o, p.value o⟩) ∧
    (s.Quiet → ∀ l ∈ s.links, ∀ p, s.pms[l.pm]? = some p → s.firedFor l.npm =
      match p.state with
      | none => []
      | some o => [⟨l.pm, l.closure o, p.value o⟩]) := by
  intro s
  have h : s.Wired := Promises.wired_exec es
  refine ⟨fun es' => ?_, fun l hl => ⟨?_, fun x => h.firedFor_eq hl⟩, fun hq l hl p hp => ?_⟩
  · have hall : Run.Allowed Promises.step (fun _ _ => True) s es' := Run.allowed_true
    exact hall.rel (I := fun _ => True) (R := Promises.Stable) trivial (fun _ _ _ _ => trivial) (fun _ => .refl) (fun _ _ _ => .trans)
      fun _ e _ _ => .step e
  · obtain ⟨p, hp⟩ : ∃ p, s.pms[l.pm]? = some p :=
      ⟨_, List.getElem?_eq_getElem (h.inside l hl).1⟩
    cases ho : p.state with
    | none =>
      rw [h.firedFor_pending hl hp ho]
      exact Nat.zero_le 1
    | some o => exact Nat.le.intro (h.count hl hp ho)
  · cases ho : p.state with
    | none => exact h.firedFor_pending hl hp ho
    | some o => exact h.firedFor_settled hl hp ho hq

end HotStuffTx
