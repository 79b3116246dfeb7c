import Mathlib
import HotStuffTx.Lib.Run

/-!
# The verification pool

Embeds `VeriPool` of `task.h`. A task is known by its address, which the allocator may
give to another one once the task is freed. The threads may be interleaved between any
two uses of a queue, and a queue gives out what is in it in any order; `burst_size`
only says after how many tasks a thread looks at its event loop, and is left out.
`given` and `resolved` record the calls of `verify` and of `resolve`.
-/

set_option linter.unusedSectionVars false

namespace HotStuffTx

/-- An element of `pms`, with `result` of its task. The promise is known by its number. -/
structure VeriEntry (T : Type) where
  ptr : Nat
  task : T
  result : Option Bool
  pm : Nat

/-- What a worker has of its loop behind it. -/
inductive Worker
  | idle
  | taken (ptr : Nat)
  | verified (ptr : Nat)
  deriving DecidableEq

/-- `main` is the task whose promise the handler of `out_queue` is resolving, and `fault`
says that a task was used that is not there. -/
structure VeriPool (T : Type) where
  pms : List (VeriEntry T)
  inQueue : List Nat
  workers : List Worker
  outQueue : List Nat
  main : Option Nat
  given : List T
  resolved : List (Nat × Option Bool)
  fault : Bool

/-- A call of `verify`, from a callback or not; a worker takes a task, verifies it and
passes it on; and the handler of `out_queue` resolves a promise and erases the task. -/
inductive VeriEvent (T : Type)
  | verify (ptr : Nat) (task : T)
  | take (i ptr : Nat)
  | work (i : Nat)
  | give (i : Nat)
  | resolve (ptr : Nat)
  | erase

def Worker.ptr : Worker → Option Nat
  | .idle => none
  | .taken ptr | .verified ptr => some ptr

def Worker.ready : Worker → Option Nat
  | .idle | .taken _ => none
  | .verified ptr => some ptr

/-- The uses of queues and promises that are left to do for its task. -/
def Worker.left : Worker → Nat
  | .idle => 0
  | .taken _ => 4
  | .verified _ => 3

namespace VeriPool

variable {T : Type} (check : T → Bool)

def init (nworker : Nat) : VeriPool T where
  pms := []
  inQueue := []
  workers := List.replicate nworker .idle
  outQueue := []
  main := none
  given := []
  resolved := []
  fault := false

def find (s : VeriPool T) (ptr : Nat) : Option (VeriEntry T) := s.pms.find? (·.ptr = ptr)

def verify (s : VeriPool T) (ptr : Nat) (task : T) : VeriPool T :=
  { s with
    pms := s.pms ++ [{ ptr, task, result := none, pm := s.given.length }]
    inQueue := s.inQueue ++ [ptr]
    given := s.given ++ [task] }

/-- `task->result = task->verify()`. -/
def work (s : VeriPool T) (i ptr : Nat) : VeriPool T :=
  match s.find ptr with
  | none => { s with fault := true }
  | some _ =>
    { s with
      pms := s.pms.map fun e => if e.ptr = ptr then { e with result := some (check e.task) } else e
      workers := s.workers.set i (.verified ptr) }

/-- `it->second.second.resolve(task->result)`. -/
def resolve (s : VeriPool T) (ptr : Nat) : VeriPool T :=
  match s.find ptr with
  | none => { s with fault := true }
  | some e =>
    { s with
      outQueue := s.outQueue.erase ptr
      main := some ptr
      resolved := s.resolved ++ [(e.pm, e.result)] }

def step (s : VeriPool T) : VeriEvent T → VeriPool T
  | .verify ptr task => s.verify ptr task
  | .take i ptr => { s with
    inQueue := s.inQueue.erase ptr
    workers := s.workers.set i (.taken ptr) }
  | .work i =>
    match s.workers[i]? with
    | some (.taken ptr) => s.work check i ptr
    | _ => s
  | .give i =>
    match s.workers[i]? with
    | some (.verified ptr) => { s with
      workers := s.workers.set i .idle
      outQueue := s.outQueue ++ [ptr] }
    | _ => s
  | .resolve ptr => s.resolve ptr
  | .erase =>
    match s.main with
    | none => s
    | some ptr => { s with
      pms := s.pms.filter (·.ptr ≠ ptr)
      main := none }

/-- A new task gets memory that is free; the handler of `out_queue` goes on once a
promise is resolved. -/
def Admits (s : VeriPool T) : VeriEvent T → Prop
  | .verify ptr _ => ptr ∉ s.pms.map VeriEntry.ptr
  | .take i ptr => s.workers[i]? = some .idle ∧ ptr ∈ s.inQueue
  | .work i => (s.workers[i]?.any fun w => w.ptr.isSome && w.ready.isNone) = true
  | .give i => (s.workers[i]?.any fun w => w.ready.isSome) = true
  | .resolve ptr => s.main = none ∧ ptr ∈ s.outQueue
  | .erase => s.main.isSome = true

instance (s : VeriPool T) : (e : VeriEvent T) → Decidable (s.Admits e)
  | .verify ptr _ => inferInstanceAs (Decidable (ptr ∉ s.pms.map VeriEntry.ptr))
  | .take i ptr => inferInstanceAs (Decidable (s.workers[i]? = some .idle ∧ ptr ∈ s.inQueue))
  | .work i => inferInstanceAs (Decidable
      ((s.workers[i]?.any fun w => w.ptr.isSome && w.ready.isNone) = true))
  | .give i => inferInstanceAs (Decidable ((s.workers[i]?.any fun w => w.ready.isSome) = true))
  | .resolve ptr => inferInstanceAs (Decidable (s.main = none ∧ ptr ∈ s.outQueue))
  | .erase => inferInstanceAs (Decidable (s.main.isSome = true))

end VeriPool

def VeriEvent.isVerify : VeriEvent T → Bool
  | .verify .. => true
  | _ => false

namespace VeriPool

variable {T : Type} {check : T → Bool} {s : VeriPool T}

-- ---------------------------------------------------------------------------
-- The invariant
-- ---------------------------------------------------------------------------

/-- Where the tasks are. -/
def places (s : VeriPool T) : List Nat :=
  s.inQueue ++ s.workers.filterMap Worker.ptr ++ s.outQueue ++ s.main.toList

/-- The tasks that have been verified. -/
def ready (s : VeriPool T) : List Nat :=
  s.workers.filterMap Worker.ready ++ s.outQueue ++ s.main.toList

/-- The promises that have not been resolved. -/
def pending (s : VeriPool T) : List Nat :=
  (s.pms.filter (some ·.ptr ≠ s.main)).map VeriEntry.pm

/-- Every task is in one place, and every promise is pending or resolved. -/
structure Ok (check : T → Bool) (nworker : Nat) (s : VeriPool T) : Prop where
  nodup : (s.pms.map VeriEntry.ptr).Nodup
  places : s.places.Perm (s.pms.map VeriEntry.ptr)
  results : ∀ e ∈ s.pms, e.ptr ∈ s.ready → e.result = some (check e.task)
  given : ∀ e ∈ s.pms, s.given[e.pm]? = some e.task
  promises : (s.pending ++ s.resolved.map Prod.fst).Perm (List.range s.given.length)
  resolved : ∀ pm r, (pm, r) ∈ s.resolved → ∃ task, s.given[pm]? = some task ∧ r = some (check task)
  workers : s.workers.length = nworker
  fault : s.fault = false

/-- What is left to do. -/
def left (s : VeriPool T) : Nat :=
  5 * s.inQueue.length + (s.workers.map Worker.left).sum + 2 * s.outQueue.length + s.main.toList.length

-- ---------------------------------------------------------------------------
-- Steps
-- ---------------------------------------------------------------------------

theorem count_filterMap_set {β : Type} [DecidableEq β] {l : List γ} {f : γ → Option β} (a : β)
    (hx : l[i]? = some x) (y : γ) : ((l.set i y).filterMap f).count a + (f x).toList.count a =
      (l.filterMap f).count a + (f y).toList.count a := by
  induction l generalizing i with
  | nil => cases hx
  | cons z l ih =>
    cases i with
    | zero =>
      cases hx
      simp only [List.set_cons_zero, List.filterMap_cons]
      cases f x <;> cases f y <;> simp [List.count_cons] <;> omega
    | succ i =>
      have := ih hx
      simp only [List.set_cons_succ, List.filterMap_cons]
      cases f z with
      | none => exact this
      | some b =>
        simp only [List.count_cons]
        omega

theorem sum_set {l : List γ} {f : γ → Nat} (hx : l[i]? = some x) (y : γ) :
    ((l.set i y).map f).sum + f x = (l.map f).sum + f y := by
  induction l generalizing i with
  | nil => cases hx
  | cons z l ih =>
    cases i with
    | zero =>
      cases hx
      simp only [List.set_cons_zero, List.map_cons, List.sum_cons]
      omega
    | succ i =>
      have := ih hx
      simp only [List.set_cons_succ, List.map_cons, List.sum_cons]
      omega

namespace Ok

variable {nworker : Nat} (h : s.Ok check nworker)
include h

/-- A task that is somewhere is there. -/
theorem find (hp : ptr ∈ s.places) : ∃ e ∈ s.pms, e.ptr = ptr ∧ s.find ptr = some e := by
  obtain ⟨e, he, rfl⟩ := List.mem_map.mp (h.places.subset hp)
  cases hf : s.find e.ptr with
  | none => exact absurd (List.find?_eq_none.mp hf e he) (by simp)
  | some e' => exact ⟨e', List.mem_of_find?_eq_some hf, by simpa using List.find?_some hf, rfl⟩

theorem unique (he : e ∈ s.pms) (he' : e' ∈ s.pms) (heq : e.ptr = e'.ptr) : e = e' :=
  List.inj_on_of_nodup_map h.nodup he he' heq

/-- A task and the others. -/
theorem split (he : e ∈ s.pms) : s.pms.Perm (e :: s.pms.filter (·.ptr ≠ e.ptr)) := by
  have hnodup : s.pms.Nodup := .of_map _ h.nodup
  refine (List.perm_ext_iff_of_nodup hnodup (List.nodup_cons.mpr ⟨?_, hnodup.filter _⟩)).mpr fun x => ?_
  · simp
  · rw [List.mem_cons, List.mem_filter]
    constructor
    · intro hx
      by_cases heq : x.ptr = e.ptr
      · exact .inl (h.unique hx he heq)
      · exact .inr ⟨hx, decide_eq_true heq⟩
    · rintro (rfl | hx)
      · exact he
      · exact hx.1

omit h in
theorem ready_subset : s.ready ⊆ s.places := by
  intro x hx
  unfold VeriPool.ready at hx
  unfold VeriPool.places
  have hw : s.workers.filterMap Worker.ready ⊆ s.workers.filterMap Worker.ptr := by
    intro y hy
    obtain ⟨w, hw, hy⟩ := List.mem_filterMap.mp hy
    cases w with
    | idle | taken => cases hy
    | verified ptr => exact List.mem_filterMap.mpr ⟨_, hw, hy⟩
  rw [List.append_assoc] at hx
  rw [List.append_assoc, List.append_assoc]
  refine List.mem_append_right _ ?_
  rcases List.mem_append.mp hx with hx | hx
  · exact List.mem_append_left _ (hw hx)
  · exact List.mem_append_right _ hx

theorem verify {ptr : Nat} {task : T} (hfresh : ptr ∉ s.pms.map VeriEntry.ptr) :
    (s.verify ptr task).Ok check nworker := by
  have hplace : ptr ∉ s.places := fun hp => hfresh (h.places.subset hp)
  have hmain : s.main ≠ some ptr := by
    intro hm
    refine hplace (List.mem_append_right _ ?_)
    rw [hm]
    exact List.mem_singleton_self ptr
  have hpending : (s.verify ptr task).pending = s.pending ++ [s.given.length] := by
    have hne : some ptr ≠ s.main := Ne.symm hmain
    show ((s.pms ++ [_]).filter fun e : VeriEntry T => decide (some e.ptr ≠ s.main)).map VeriEntry.pm = _
    rw [List.filter_append, List.map_append]
    refine congrArg (s.pending ++ ·) ?_
    simp [hne]
  refine ⟨?_, ?_, fun e he hr => ?_, fun e he => ?_, ?_, fun pm r hm => ?_, h.workers, h.fault⟩
  · show ((s.pms ++ _).map VeriEntry.ptr).Nodup
    rw [List.map_append]
    exact List.nodup_append'.mpr ⟨h.nodup, List.nodup_singleton _, List.disjoint_singleton.mpr hfresh⟩
  · show ((s.inQueue ++ [ptr]) ++ s.workers.filterMap Worker.ptr ++ s.outQueue ++ s.main.toList).Perm
      ((s.pms ++ _).map VeriEntry.ptr)
    rw [List.map_append]
    refine List.Perm.trans ?_ (h.places.append_right [ptr])
    refine List.perm_iff_count.mpr fun x => ?_
    simp only [VeriPool.places, List.count_append]
    omega
  · rcases List.mem_append.mp he with he | he
    · exact h.results e he hr
    · rw [List.mem_singleton.mp he] at hr
      exact absurd (ready_subset (s := s) hr) hplace
  · rcases List.mem_append.mp he with he | he
    · have hg := h.given e he
      show (s.given ++ [task])[e.pm]? = _
      rw [List.getElem?_append_left (List.getElem?_eq_some_iff.mp hg).1, hg]
    · rw [List.mem_singleton.mp he]
      exact List.getElem?_concat_length
  · rw [hpending]
    show (_ ++ s.resolved.map Prod.fst).Perm (List.range (s.given ++ [task]).length)
    rw [List.length_append, List.length_singleton, List.range_succ]
    refine List.Perm.trans ?_ (h.promises.append_right _)
    rw [List.append_assoc, List.append_assoc]
    exact List.perm_append_comm.append_left _
  · obtain ⟨t, ht, hr⟩ := h.resolved pm r hm
    refine ⟨t, ?_, hr⟩
    show (s.given ++ [task])[pm]? = _
    rw [List.getElem?_append_left (List.getElem?_eq_some_iff.mp ht).1, ht]

/-- The tasks change place. -/
theorem move {s' : VeriPool T} (hp : s'.places.Perm s.places) (hr : s'.ready ⊆ s.ready)
    (hpms : s'.pms = s.pms) (hmain : s'.main = s.main) (hgiven : s'.given = s.given)
    (hres : s'.resolved = s.resolved) (hlen : s'.workers.length = s.workers.length)
    (hfault : s'.fault = s.fault) : s'.Ok check nworker where
  nodup := hpms ▸ h.nodup
  places := hpms ▸ hp.trans h.places
  results e he hm := h.results e (hpms ▸ he) (hr hm)
  given e he := hgiven ▸ h.given e (hpms ▸ he)
  promises := by
    rw [VeriPool.pending, hpms, hmain, hres, hgiven]
    exact h.promises
  resolved pm r hm := hgiven ▸ h.resolved pm r (hres ▸ hm)
  workers := hlen.trans h.workers
  fault := hfault.trans h.fault

theorem take {i ptr : Nat} (hw : s.workers[i]? = some .idle) (hp : ptr ∈ s.inQueue) :
    Ok check nworker { s with
      inQueue := s.inQueue.erase ptr
      workers := s.workers.set i (.taken ptr) } := by
  refine h.move (List.perm_iff_count.mpr fun x => ?_) (fun x hx => ?_) rfl rfl rfl rfl List.length_set rfl
  · have hset := count_filterMap_set (f := Worker.ptr) x hw (.taken ptr)
    have hin := (List.perm_cons_erase hp).count_eq x
    simp only [VeriPool.places, List.count_append]
    simp only [Worker.ptr, Option.toList_none, Option.toList_some, List.count_nil, List.count_cons] at hset hin
    omega
  · have hset := count_filterMap_set (f := Worker.ready) x hw (.taken ptr)
    simp only [Worker.ready, Option.toList_none, List.count_nil] at hset
    rw [← List.count_pos_iff] at hx ⊢
    simp only [VeriPool.ready, List.count_append] at hx ⊢
    omega

theorem give {i ptr : Nat} (hw : s.workers[i]? = some (.verified ptr)) :
    Ok check nworker { s with
      workers := s.workers.set i .idle
      outQueue := s.outQueue ++ [ptr] } := by
  refine h.move (List.perm_iff_count.mpr fun x => ?_) (fun x hx => ?_) rfl rfl rfl rfl List.length_set rfl
  · have hset := count_filterMap_set (f := Worker.ptr) x hw .idle
    simp only [VeriPool.places, List.count_append]
    simp only [Worker.ptr, Option.toList_none, Option.toList_some, List.count_nil] at hset
    omega
  · have hset := count_filterMap_set (f := Worker.ready) x hw .idle
    simp only [Worker.ready, Option.toList_none, Option.toList_some, List.count_nil] at hset
    rw [← List.count_pos_iff] at hx ⊢
    simp only [VeriPool.ready, List.count_append] at hx ⊢
    omega

theorem work {i ptr : Nat} (hw : s.workers[i]? = some (.taken ptr)) :
    (s.work check i ptr).Ok check nworker := by
  have hmem : ptr ∈ s.places := by
    refine List.mem_append_left _ (List.mem_append_left _ (List.mem_append_right _ ?_))
    exact List.mem_filterMap.mpr ⟨_, List.mem_of_getElem? hw, rfl⟩
  obtain ⟨_, -, -, hfind⟩ := h.find hmem
  unfold VeriPool.work
  rw [hfind]
  generalize hf : (fun e : VeriEntry T => if e.ptr = ptr then { e with result := some (check e.task) } else e) = f
  have hptr (e : VeriEntry T) : (f e).ptr = e.ptr := by
    subst hf
    dsimp only
    split <;> rfl
  have hpm (e : VeriEntry T) : (f e).pm = e.pm ∧ (f e).task = e.task := by
    subst hf
    dsimp only
    split <;> exact ⟨rfl, rfl⟩
  have hmap : (s.pms.map f).map VeriEntry.ptr = s.pms.map VeriEntry.ptr := by
    rw [List.map_map]
    exact List.map_congr_left fun e _ => hptr e
  refine ⟨hmap ▸ h.nodup, ?_, fun e he hr => ?_, fun e he => ?_, ?_, h.resolved, ?_, h.fault⟩
  · rw [hmap]
    refine List.Perm.trans (List.perm_iff_count.mpr fun x => ?_) h.places
    have hset := count_filterMap_set (f := Worker.ptr) x hw (.verified ptr)
    simp only [VeriPool.places, List.count_append]
    simp only [Worker.ptr] at hset
    omega
  · obtain ⟨e, hmem, rfl⟩ := List.mem_map.mp he
    rw [(hpm e).2]
    rw [hptr] at hr
    by_cases heq : e.ptr = ptr
    · subst hf
      dsimp only
      rw [if_pos heq]
    · have hres := h.results e hmem (by
        have hset := count_filterMap_set (f := Worker.ready) e.ptr hw (.verified ptr)
        simp only [Worker.ready, Option.toList_none, Option.toList_some, List.count_nil,
          List.count_cons, beq_iff_eq, if_neg (Ne.symm heq)] at hset
        rw [← List.count_pos_iff] at hr ⊢
        simp only [VeriPool.ready, List.count_append] at hr ⊢
        omega)
      subst hf
      dsimp only
      rw [if_neg heq, hres]
  · obtain ⟨e, hmem, rfl⟩ := List.mem_map.mp he
    rw [(hpm e).1, (hpm e).2]
    exact h.given e hmem
  · refine List.Perm.trans (.of_eq (congrArg (· ++ s.resolved.map Prod.fst) ?_)) h.promises
    simp only [VeriPool.pending, List.filter_map, List.map_map]
    have hfilter : (fun e : VeriEntry T => decide (some e.ptr ≠ s.main)) ∘ f =
        fun e => decide (some e.ptr ≠ s.main) := by
      funext e
      simp only [Function.comp_apply, hptr]
    rw [hfilter]
    exact List.map_congr_left fun e _ => (hpm e).1
  · exact List.length_set.trans h.workers

theorem resolve {ptr : Nat} (hm : s.main = none) (hp : ptr ∈ s.outQueue) :
    (s.resolve ptr).Ok check nworker := by
  have hready : ptr ∈ s.ready := List.mem_append_left _ (List.mem_append_right _ hp)
  obtain ⟨e, he, rfl, hfind⟩ := h.find (ready_subset hready)
  unfold VeriPool.resolve
  rw [hfind]
  have hout := List.perm_cons_erase hp
  refine ⟨h.nodup, ?_, fun e' he' hr => h.results e' he' ?_, h.given, ?_, fun pm r hmem => ?_, h.workers,
    h.fault⟩
  · refine List.Perm.trans (List.perm_iff_count.mpr fun x => ?_) h.places
    have hcount := hout.count_eq x
    simp only [VeriPool.places, List.count_append, hm, Option.toList_none, Option.toList_some,
      List.count_nil, List.count_cons] at hcount ⊢
    omega
  · have hcount := hout.count_eq e'.ptr
    rw [← List.count_pos_iff] at hr ⊢
    simp only [VeriPool.ready, List.count_append, hm, Option.toList_none, Option.toList_some,
      List.count_nil, List.count_cons] at hr hcount ⊢
    omega
  · have hpending : s.pending = s.pms.map VeriEntry.pm := by
      unfold VeriPool.pending
      rw [hm]
      simp
    refine List.Perm.trans ?_ h.promises
    rw [hpending, List.map_append]
    have hsplit := (h.split he).map VeriEntry.pm
    rw [List.map_cons] at hsplit
    refine List.Perm.trans ?_ (hsplit.symm.append_right _)
    rw [← List.append_assoc, List.cons_append]
    refine List.perm_append_comm.trans (.of_eq ?_)
    simp only [VeriPool.pending, ne_eq, Option.some.injEq, List.map_cons, List.map_nil, List.cons_append,
      List.nil_append]
  · rcases List.mem_append.mp hmem with hmem | hmem
    · exact h.resolved pm r hmem
    · cases List.mem_singleton.mp hmem
      exact ⟨e.task, h.given e he, h.results e he hready⟩

theorem erase {ptr : Nat} (hm : s.main = some ptr) : Ok check nworker { s with
    pms := s.pms.filter (·.ptr ≠ ptr)
    main := none } := by
  have hmem : ptr ∈ s.places := List.mem_append_right _ (by rw [hm]; exact List.mem_singleton_self ptr)
  obtain ⟨e, he, rfl, -⟩ := h.find hmem
  have hsub {x} (hx : x ∈ s.pms.filter (·.ptr ≠ e.ptr)) : x ∈ s.pms := (List.mem_filter.mp hx).1
  refine ⟨h.nodup.sublist (List.filter_sublist.map _), ?_, fun x hx hr => ?_, fun x hx => h.given x (hsub hx),
    ?_, h.resolved, h.workers, h.fault⟩
  · have hperm := h.places.trans ((h.split he).map VeriEntry.ptr)
    refine (List.perm_cons e.ptr).mp (List.Perm.trans ?_ hperm)
    refine List.perm_iff_count.mpr fun x => ?_
    simp only [VeriPool.places, hm, List.count_cons, List.count_append, Option.toList_none,
      Option.toList_some, List.count_nil]
    omega
  · refine h.results x (hsub hx) ?_
    rw [← List.count_pos_iff] at hr ⊢
    simp only [VeriPool.ready, List.count_append, Option.toList_none, List.count_nil] at hr ⊢
    omega
  · refine List.Perm.trans (.of_eq (congrArg (· ++ s.resolved.map Prod.fst) ?_)) h.promises
    simp [VeriPool.pending, hm]

theorem step {e : VeriEvent T} (hok : s.Admits e) : (s.step check e).Ok check nworker := by
  cases e with
  | verify ptr task => exact h.verify hok
  | take i ptr => exact h.take hok.1 hok.2
  | work i =>
    dsimp only [VeriPool.step]
    split
    · exact h.work ‹_›
    · exact h
  | give i =>
    dsimp only [VeriPool.step]
    split
    · exact h.give ‹_›
    · exact h
  | resolve ptr => exact h.resolve hok.1 hok.2
  | erase =>
    dsimp only [VeriPool.step]
    split
    · exact h
    · exact h.erase ‹_›

end Ok

theorem ok_init (nworker : Nat) : (init nworker : VeriPool T).Ok check nworker where
  nodup := List.nodup_nil
  places := by simp [places, init, Worker.ptr]
  results := nofun
  given := nofun
  promises := .refl _
  resolved := nofun
  workers := List.length_replicate
  fault := rfl

theorem Ok.run {nworker : Nat} {ok : VeriPool T → VeriEvent T → Prop} {es : List (VeriEvent T)}
    (h : s.Ok check nworker) (hok : ∀ s e, ok s e → s.Admits e)
    (hes : Run.Allowed (VeriPool.step check) ok s es) :
    (Run.exec (VeriPool.step check) s es).Ok check nworker :=
  hes.inv h fun _ _ hs he => hs.step (hok _ _ he)

-- ---------------------------------------------------------------------------
-- Progress
-- ---------------------------------------------------------------------------

/-- What is not a call of `verify`. -/
def Works (s : VeriPool T) (e : VeriEvent T) : Prop := s.Admits e ∧ e.isVerify = false

theorem Ok.left_step {nworker : Nat} {e : VeriEvent T} (h : s.Ok check nworker) (he : s.Works e) :
    (s.step check e).left < s.left := by
  obtain ⟨hok, hwork⟩ := he
  cases e with
  | verify ptr task => cases hwork
  | take i ptr =>
    have hset := sum_set (f := Worker.left) hok.1 (.taken ptr)
    have hlen := (List.perm_cons_erase hok.2).length_eq
    rw [List.length_cons] at hlen
    simp only [left, VeriPool.step, Worker.left] at hset ⊢
    omega
  | work i =>
    cases hw : s.workers[i]? with
    | none => simp [Admits, hw] at hok
    | some w =>
      cases w with
      | idle | verified => simp [Admits, hw, Worker.ptr, Worker.ready] at hok
      | taken ptr =>
        obtain ⟨_, -, -, hfind⟩ := h.find (List.mem_append_left _ (List.mem_append_left _
          (List.mem_append_right _ (List.mem_filterMap.mpr ⟨_, List.mem_of_getElem? hw, rfl⟩))))
        have hset := sum_set (f := Worker.left) hw (.verified ptr)
        simp only [left, VeriPool.step, hw, VeriPool.work, hfind, Worker.left] at hset ⊢
        omega
  | give i =>
    cases hw : s.workers[i]? with
    | none => simp [Admits, hw] at hok
    | some w =>
      cases w with
      | idle | taken => simp [Admits, hw, Worker.ready] at hok
      | verified ptr =>
        have hset := sum_set (f := Worker.left) hw .idle
        simp only [left, VeriPool.step, hw, Worker.left, List.length_append, List.length_singleton] at hset ⊢
        omega
  | resolve ptr =>
    obtain ⟨hmain, hp⟩ := hok
    obtain ⟨_, -, -, hfind⟩ := h.find (List.mem_append_left _ (List.mem_append_right _ hp))
    have hlen := (List.perm_cons_erase hp).length_eq
    rw [List.length_cons] at hlen
    simp only [left, VeriPool.step, VeriPool.resolve, hfind, hmain, Option.toList_some, Option.toList_none,
      List.length_singleton, List.length_nil]
    omega
  | erase =>
    obtain ⟨ptr, hm⟩ := Option.isSome_iff_exists.mp hok
    simp only [left, VeriPool.step, hm, Option.toList_some, Option.toList_none, List.length_singleton,
      List.length_nil]
    omega

theorem given_step {e : VeriEvent T} (he : e.isVerify = false) : (s.step check e).given = s.given := by
  cases e with
  | verify ptr task => cases he
  | take i ptr => rfl
  | work i =>
    simp only [VeriPool.step, VeriPool.work]
    split <;> try rfl
    split <;> rfl
  | give i =>
    simp only [VeriPool.step]
    split <;> rfl
  | resolve ptr =>
    simp only [VeriPool.step, VeriPool.resolve]
    split <;> rfl
  | erase =>
    simp only [VeriPool.step]
    split <;> rfl

/-- Where no thread can go on, nothing is pending. -/
theorem Ok.idle {nworker : Nat} (h : s.Ok check nworker) (hn : 0 < nworker)
    (hidle : ∀ e, s.Admits e → e.isVerify = true) :
    (s.resolved.map Prod.fst).Perm (List.range s.given.length) := by
  have hno {e : VeriEvent T} (he : e.isVerify = false) : ¬ s.Admits e := fun hok => by
    cases he.symm.trans (hidle e hok)
  have hmain : s.main = none := by
    cases hm : s.main with
    | none => rfl
    | some ptr => exact absurd (by simp [Admits, hm]) (hno (e := .erase) rfl)
  have hout : s.outQueue = [] := by
    refine List.eq_nil_iff_forall_not_mem.mpr fun ptr hp => ?_
    exact hno (e := .resolve ptr) rfl ⟨hmain, hp⟩
  have hworkers : ∀ w ∈ s.workers, w = .idle := by
    intro w hw
    obtain ⟨i, hi⟩ := List.getElem?_of_mem hw
    cases w with
    | idle => rfl
    | taken ptr => exact absurd (by simp [Admits, hi, Worker.ptr, Worker.ready]) (hno (e := .work i) rfl)
    | verified ptr => exact absurd (by simp [Admits, hi, Worker.ready]) (hno (e := .give i) rfl)
  have hin : s.inQueue = [] := by
    refine List.eq_nil_iff_forall_not_mem.mpr fun ptr hp => ?_
    have hlt : 0 < s.workers.length := h.workers ▸ hn
    refine hno (e := .take 0 ptr) rfl ⟨?_, hp⟩
    rw [List.getElem?_eq_getElem hlt, hworkers _ (List.getElem_mem hlt)]
  have hplaces : s.places = [] := by
    have hw : s.workers.filterMap Worker.ptr = [] :=
      List.filterMap_eq_nil_iff.mpr fun w hw => by rw [hworkers w hw]; rfl
    rw [VeriPool.places, hin, hw, hout, hmain]
    rfl
  have hpms : s.pms = [] := by
    have := h.places
    rw [hplaces] at this
    exact List.map_eq_nil_iff.mp this.nil_eq.symm
  have hall := h.promises
  rwa [pending, hpms] at hall

end VeriPool

/-- In every interleaving of the threads and of the calls of `verify`, whatever
addresses the allocator uses again: no task is used that is not there, a promise is
resolved once at most, with what `verify` gives for its own task; and once no more
calls are made the threads stop, after a number of steps that is known beforehand,
with every promise resolved. -/
theorem veri_pool {T : Type} (check : T → Bool) (nworker : Nat) (hn : 0 < nworker)
    (es : List (VeriEvent T))
    (hes : Run.Allowed (VeriPool.step check) VeriPool.Admits (.init nworker) es) :
    let s := Run.exec (VeriPool.step check) (.init nworker) es
    s.fault = false ∧ (s.resolved.map Prod.fst).Nodup ∧
    (∀ pm r, (pm, r) ∈ s.resolved → ∃ task, s.given[pm]? = some task ∧ r = some (check task)) ∧
    ∀ es', Run.Allowed (VeriPool.step check) VeriPool.Works s es' →
      let s' := Run.exec (VeriPool.step check) s es'
      es'.length ≤ s.left ∧ s'.given = s.given ∧
      ((∀ e, s'.Admits e → e.isVerify = true) →
        (s'.resolved.map Prod.fst).Perm (List.range s.given.length)) := by
  intro s
  have h : s.Ok check nworker := (VeriPool.ok_init nworker).run (fun _ _ he => he) hes
  refine ⟨h.fault, ?_, h.resolved, fun es' hes' => ?_⟩
  · have hnodup := h.promises.nodup_iff.mpr List.nodup_range
    exact (List.nodup_append'.mp hnodup).2.1
  · intro s'
    have h' : s'.Ok check nworker := h.run (fun _ _ he => he.1) hes'
    have hlen : es'.length + s'.left ≤ s.left :=
      hes'.length_le h (fun _ _ hs he => hs.step he.1) fun _ _ hs he => hs.left_step he
    have hgiven : s'.given = s.given :=
      hes'.inv (I := fun t => t.given = s.given) rfl fun _ _ ht he => (VeriPool.given_step he.2).trans ht
    refine ⟨Nat.le_of_add_right_le hlen, hgiven, fun hidle => ?_⟩
    rw [← hgiven]
    exact h'.idle hn hidle

/-- Two workers; the third task gets the memory of the first, while the second is still
being verified. -/
def someTasks : List (VeriEvent Nat) :=
  [.verify 7 4, .take 0 7, .verify 9 5, .work 0, .take 1 9, .give 0, .resolve 7, .erase, .verify 7 6,
    .take 0 7, .work 0, .give 0, .work 1, .resolve 7, .give 1]

theorem veri_pool_someTasks :
    let s := Run.exec (VeriPool.step (· % 2 == 0)) (.init 2) someTasks
    s.resolved = [(0, some true), (2, some true)] ∧
    (∃ task, s.given[2]? = some task ∧ some true = some (task % 2 == 0)) ∧
    ((Run.exec (VeriPool.step (· % 2 == 0)) s [.erase, .resolve 9, .erase]).resolved.map Prod.fst).Perm
      (List.range 3) := by
  have h := veri_pool (· % 2 == 0) 2 (by decide) someTasks (by decide +kernel)
  refine ⟨by decide +kernel, h.2.2.1 2 (some true) (by decide +kernel), by decide +kernel⟩

end HotStuffTx
