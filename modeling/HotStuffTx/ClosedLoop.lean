import HotStuffTx.Client

/-!
# The closed loop of the client

What waits and what is recorded are together what was sent, and between two
messages the loop `while (try_send())` has filled the window or used up the
budget. The counter of a command has 32 bits: the accounting holds as long as
no command is sent twice.
-/

set_option linter.unusedSectionVars false

namespace HotStuffTx

namespace Client

variable {Hash : Type} [DecidableEq Hash]

/-- The budget of `c` is what the commands sent leave of `maxIterNum`; none is
left of an unlimited one. -/
def Budget (maxIterNum : Int) (c : Client Hash) : Prop :=
  if maxIterNum < 0 then c.maxIterNum = maxIterNum
  else c.maxIterNum = maxIterNum - c.sent.length ∧ 0 ≤ c.maxIterNum

/-- Every command sent is waiting or recorded, and is so once. -/
structure Balanced (C : CommandHash Hash) (maxAsyncNum : Nat) (maxIterNum : Int) (c : Client Hash) :
    Prop where
  window : c.maxAsyncNum = maxAsyncNum
  accounts : (c.waiting.map Prod.fst ++ c.recorded.map Finality.cmdHash).Perm (c.sent.map C.getHash)
  room : c.waiting.length ≤ maxAsyncNum
  budget : c.Budget maxIterNum
  full : c.sending = false → c.maxIterNum ≠ 0 → c.waiting.length = maxAsyncNum

/-- The counter numbers the commands. -/
structure Numbered (c : Client Hash) : Prop where
  cnt : c.cnt = UInt32.ofNat c.sent.length
  sent : ∀ i cmd, c.sent[i]? = some cmd → cmd.n = UInt32.ofNat i

variable {C : CommandHash Hash} {maxAsyncNum : Nat} {maxIterNum : Int} {c : Client Hash}

/-- One request less, where the keys are distinct. -/
theorem perm_filter {l : List (Hash × Request)} (h : (l.map Prod.fst).Nodup) {k : Hash}
    {r : Request} (hk : l.lookup k = some r) :
    (l.map Prod.fst).Perm (k :: (l.filter (·.1 ≠ k)).map Prod.fst) := by
  induction l with
  | nil => cases hk
  | cons p l ih =>
    obtain ⟨k', r'⟩ := p
    rw [List.map_cons, List.nodup_cons] at h
    by_cases hkk : k = k'
    · subst hkk
      have hrest : l.filter (·.1 ≠ k) = l := by
        refine List.filter_eq_self.mpr fun q hq => ?_
        simp only [ne_eq, decide_not, Bool.not_eq_eq_eq_not, Bool.not_true, decide_eq_false_iff_not]
        rintro rfl
        have hmem : q.1 ∈ l.map Prod.fst := List.mem_map_of_mem hq
        exact h.1 hmem
      rw [List.filter_cons_of_neg (by simp), hrest]
      exact .refl _
    · have hne : (k == k') = false := beq_false_of_ne hkk
      rw [List.lookup_cons, hne] at hk
      rw [List.filter_cons_of_pos (by simpa using Ne.symm hkk), List.map_cons, List.map_cons]
      exact ((ih h.2 hk).cons k').trans (.swap _ _ _)

theorem mem_of_lookup {l : List (Hash × Request)} {k : Hash} {r : Request} (h : l.lookup k = some r) :
    k ∈ l.map Prod.fst := by
  obtain ⟨before, after, rfl, -⟩ := List.lookup_eq_some_iff.mp h
  exact List.mem_map_of_mem (List.mem_append_right before List.mem_cons_self)

/-- What a round of the loop does: it sends a command, or it is the last. -/
theorem step_trySend (c : Client Hash) (nextTx : List UInt64) :
    (c.sending = true ∧ c.waiting.length < c.maxAsyncNum ∧ c.maxIterNum ≠ 0 ∧
      c.step nfaulty C (.trySend nextTx) = { c with
        cnt := c.cnt + 1
        sent := c.sent ++ [⟨c.cid, c.cnt, nextTx⟩]
        waiting := insertRequest c.waiting (C.getHash ⟨c.cid, c.cnt, nextTx⟩) ⟨⟨c.cid, c.cnt, nextTx⟩, 0⟩
        maxIterNum := if c.maxIterNum > 0 then c.maxIterNum - 1 else c.maxIterNum
        sending := true }) ∨
    (c.sending = true ∧ (c.maxAsyncNum ≤ c.waiting.length ∨ c.maxIterNum = 0) ∧
      c.step nfaulty C (.trySend nextTx) = { c with sending := false }) ∨
    c.sending = false ∧ c.step nfaulty C (.trySend nextTx) = c := by
  simp only [step, Client.trySend]
  cases hs : c.sending with
  | false => exact .inr (.inr ⟨rfl, rfl⟩)
  | true =>
    by_cases hif : (!true || decide (c.waiting.length < c.maxAsyncNum)) && c.maxIterNum != 0
    · rw [if_pos rfl, if_pos hif]
      simp only [Bool.not_true, Bool.false_or, Bool.and_eq_true, decide_eq_true_eq, bne_iff_ne] at hif
      exact .inl ⟨rfl, hif.1, hif.2, rfl⟩
    · rw [if_pos rfl, if_neg hif]
      refine .inr (.inl ⟨rfl, ?_, rfl⟩)
      simp only [Bool.not_true, Bool.false_or, Bool.and_eq_true, decide_eq_true_eq, bne_iff_ne,
        not_and_or, not_lt, not_not] at hif
      exact hif

/-- What a response does: nothing, one more of the acks, or the last of them. -/
theorem step_resp (c : Client Hash) (src : ReplicaID) (fin : Finality Hash) :
    c.step nfaulty C (.resp src fin) = c ∨ c.sending = false ∧ ∃ r, c.waiting.lookup fin.cmdHash = some r ∧
      (c.step nfaulty C (.resp src fin) = { c with
          waiting := (fin.cmdHash, { r with confirmed := r.confirmed + 1 }) ::
            c.waiting.filter (·.1 ≠ fin.cmdHash) } ∨
        c.step nfaulty C (.resp src fin) = { c with
          recorded := c.recorded ++ [fin]
          waiting := c.waiting.filter (·.1 ≠ fin.cmdHash)
          sending := true }) := by
  simp only [step, clientRespCmdHandler]
  cases hs : c.sending with
  | true => exact .inl rfl
  | false =>
    rw [if_neg Bool.false_ne_true]
    cases hl : c.waiting.lookup fin.cmdHash with
    | none => exact .inl rfl
    | some r =>
      by_cases hd : fin.decision ≠ 1
      · exact .inl (if_pos hd)
      · refine .inr ⟨rfl, r, rfl, ?_⟩
        by_cases hlast : r.confirmed + 1 ≤ nfaulty
        · exact .inl ((if_neg hd).trans (if_pos hlast))
        · exact .inr ((if_neg hd).trans (if_neg hlast))

namespace Balanced

theorem length (h : c.Balanced C maxAsyncNum maxIterNum) :
    c.sent.length = c.recorded.length + c.waiting.length := by
  simpa [Nat.add_comm] using h.accounts.length_eq.symm

theorem trySend (h : c.Balanced C maxAsyncNum maxIterNum) {nextTx : List UInt64}
    (hnew : (c.step nfaulty C (.trySend nextTx)).sent.Nodup) :
    (c.step nfaulty C (.trySend nextTx)).Balanced C maxAsyncNum maxIterNum := by
  rcases c.step_trySend nextTx with ⟨-, hroom, hiter, hstep⟩ | ⟨-, hstop, hstep⟩ | ⟨-, hstep⟩
  · rw [hstep] at hnew ⊢
    set cmd : CommandDummy := ⟨c.cid, c.cnt, nextTx⟩
    have hfresh : C.getHash cmd ∉ c.waiting.map Prod.fst := fun hmem => by
      obtain ⟨old, hold, heq⟩ := List.mem_map.mp (h.accounts.subset (List.mem_append_left _ hmem))
      exact (List.nodup_append.mp hnew).2.2 _ hold _ (List.mem_singleton_self _) (C.getHash_inj heq)
    have hins : insertRequest c.waiting (C.getHash cmd) ⟨cmd, 0⟩ =
        (C.getHash cmd, ⟨cmd, 0⟩) :: c.waiting := by
      refine if_neg fun hsome => hfresh ?_
      obtain ⟨r, hr⟩ := Option.isSome_iff_exists.mp hsome
      exact mem_of_lookup hr
    rw [hins]
    refine ⟨h.window, ?_, ?_, ?_, nofun⟩
    · rw [List.map_append, List.map_cons, List.cons_append]
      exact (h.accounts.cons _).trans (List.perm_append_singleton _ _).symm
    · rw [List.length_cons, ← h.window]
      exact hroom
    · have hbudget := h.budget
      unfold Budget at hbudget ⊢
      dsimp only
      rw [List.length_append, List.length_singleton]
      split <;> split at hbudget <;> split <;> omega
  · rw [hstep]
    refine ⟨h.window, h.accounts, h.room, h.budget, fun _ hiter => ?_⟩
    exact Nat.le_antisymm h.room (h.window ▸ hstop.resolve_right hiter)
  · rw [hstep]
    exact h

theorem resp (h : c.Balanced C maxAsyncNum maxIterNum) (hsent : c.sent.Nodup) (src : ReplicaID)
    (fin : Finality Hash) : (c.step nfaulty C (.resp src fin)).Balanced C maxAsyncNum maxIterNum := by
  rcases c.step_resp src fin with hstep | ⟨hs, r, hr, hstep⟩
  · rw [hstep]
    exact h
  · have hkeys : (c.waiting.map Prod.fst).Nodup := by
      have hall := h.accounts.nodup_iff.mpr (hsent.map fun a b => C.getHash_inj)
      exact (List.nodup_append.mp hall).1
    have hperm := perm_filter hkeys hr
    have hlen : c.waiting.length = (c.waiting.filter (·.1 ≠ fin.cmdHash)).length + 1 := by
      simpa using hperm.length_eq
    rcases hstep with hstep | hstep
    · rw [hstep]
      refine ⟨h.window, ?_, ?_, h.budget, fun _ hiter => ?_⟩
      · exact (hperm.symm.append_right _).trans h.accounts
      · rw [List.length_cons, ← hlen]
        exact h.room
      · rw [List.length_cons, ← hlen]
        exact h.full hs hiter
    · rw [hstep]
      refine ⟨h.window, ?_, ?_, h.budget, nofun⟩
      · refine List.Perm.trans ?_ h.accounts
        rw [List.map_append, ← List.append_assoc]
        refine (List.perm_append_singleton _ _).trans ?_
        exact (hperm.symm.append_right _)
      · have hroom := h.room
        dsimp only
        omega

end Balanced

-- ---------------------------------------------------------------------------
-- Runs
-- ---------------------------------------------------------------------------

theorem sent_prefix_step (c : Client Hash) (e : ClientEvent Hash) :
    c.sent <+: (c.step nfaulty C e).sent := by
  cases e with
  | trySend nextTx =>
    rcases c.step_trySend nextTx with ⟨-, -, -, hstep⟩ | ⟨-, -, hstep⟩ | ⟨-, hstep⟩ <;> rw [hstep]
    exact List.prefix_append _ _
  | resp src fin =>
    rcases c.step_resp src fin with hstep | ⟨-, r, -, hstep | hstep⟩ <;> rw [hstep]

theorem sent_prefix_exec (c : Client Hash) (es : List (ClientEvent Hash)) :
    c.sent <+: (Run.exec (step nfaulty C) c es).sent := by
  induction es generalizing c with
  | nil => exact List.prefix_refl _
  | cons e es ih => exact (c.sent_prefix_step e).trans (ih _)

theorem Balanced.run (h : c.Balanced C maxAsyncNum maxIterNum) (es : List (ClientEvent Hash))
    (hsent : (Run.exec (step nfaulty C) c es).sent.Nodup) :
    (Run.exec (step nfaulty C) c es).Balanced C maxAsyncNum maxIterNum := by
  induction es generalizing c with
  | nil => exact h
  | cons e es ih =>
    have hnext : (c.step nfaulty C e).sent.Nodup := hsent.sublist (sent_prefix_exec _ es).sublist
    refine ih ?_ hsent
    cases e with
    | trySend nextTx => exact h.trySend hnext
    | resp src fin => exact h.resp (hnext.sublist (c.sent_prefix_step _).sublist) src fin

theorem numbered_init (maxAsyncNum : Nat) (maxIterNum : Int) (cid : UInt32) :
    (Client.init maxAsyncNum maxIterNum cid : Client Hash).Numbered :=
  ⟨rfl, fun _ _ h => by cases h⟩

theorem Numbered.step (h : c.Numbered) (e : ClientEvent Hash) : (c.step nfaulty C e).Numbered := by
  cases e with
  | trySend nextTx =>
    rcases c.step_trySend nextTx with ⟨-, -, -, hstep⟩ | ⟨-, -, hstep⟩ | ⟨-, hstep⟩
    · rw [hstep]
      refine ⟨?_, fun i cmd hi => ?_⟩
      · rw [List.length_append, List.length_singleton, UInt32.ofNat_add, ← h.cnt]
        rfl
      · rw [List.getElem?_append] at hi
        split at hi
        · exact h.sent i cmd hi
        · obtain ⟨hlt, rfl⟩ := List.getElem?_eq_some_iff.mp hi
          have hi : i = c.sent.length := by
            rw [List.length_singleton] at hlt
            omega
          rw [List.getElem_singleton, hi]
          exact h.cnt
    · rw [hstep]
      exact ⟨h.cnt, h.sent⟩
    · rw [hstep]
      exact h
  | resp src fin =>
    rcases c.step_resp src fin with hstep | ⟨-, r, -, hstep | hstep⟩ <;> rw [hstep] <;>
      exact ⟨h.cnt, h.sent⟩

/-- Until the counter has been all round no command is sent twice. -/
theorem Numbered.nodup (h : c.Numbered) (hlen : c.sent.length ≤ 2 ^ 32) : c.sent.Nodup := by
  refine List.nodup_iff_injective_getElem.mpr fun i j hij => ?_
  have hi := h.sent i _ (List.getElem?_eq_getElem i.isLt)
  have hj := h.sent j _ (List.getElem?_eq_getElem j.isLt)
  have hcnt : UInt32.ofNat i = UInt32.ofNat j :=
    hi.symm.trans ((congrArg CommandDummy.n hij).trans hj)
  have hnat := congrArg UInt32.toNat hcnt
  rw [UInt32.toNat_ofNat', UInt32.toNat_ofNat', Nat.mod_eq_of_lt (i.isLt.trans_le hlen),
    Nat.mod_eq_of_lt (j.isLt.trans_le hlen)] at hnat
  exact Fin.ext hnat

end Client

end HotStuffTx
