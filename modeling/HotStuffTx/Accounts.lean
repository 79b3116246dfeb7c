import HotStuffTx.SmallBank

/-!
# What the bank operations read

Each operation in closed form: where the accounts it reaches exist it gives the
bank the source describes, elsewhere it reads outside the accounts. A loop that
stops at the first entry it rejects reaches only the entries up to that one.
-/

namespace HotStuffTx

-- ---------------------------------------------------------------------------
-- One account
-- ---------------------------------------------------------------------------

/-- The balance of an account, 0 where there is none. -/
def balance (accounts : Vector UInt64 n) (userId : UInt64) : UInt64 :=
  accounts[userId.toNat]?.getD 0

theorem getElem?_account (v : Vector UInt64 n) (u : UInt64) :
    v[u.toNat]? = if u.toNat < n then some (balance v u) else none := by
  by_cases hu : u.toNat < n
  · simp [balance, hu]
  · simp [hu]

theorem modifyAccount_eq (v : Vector UInt64 n) (u : UInt64) (f : UInt64 → UInt64) :
    modifyAccount v u f =
      if u.toNat < n then some (v.setIfInBounds u.toNat (f (balance v u))) else none := by
  unfold modifyAccount
  rw [getElem?_account]
  split <;> rfl

theorem balance_set (v : Vector UInt64 n) (u w x : UInt64) (hu : u.toNat < n) :
    balance (v.setIfInBounds u.toNat x) w = if w = u then x else balance v w := by
  unfold balance
  rw [Vector.getElem?_setIfInBounds]
  by_cases hw : w = u
  · simp [hw, hu]
  · have hne : u.toNat ≠ w.toNat := fun h => hw (UInt64.toNat_inj.mp h.symm)
    simp [hw, hne]

-- ---------------------------------------------------------------------------
-- Loops over accounts
-- ---------------------------------------------------------------------------

/-- Every entry up to the first one that stops the loop is fine. -/
def Reached (ok : α → Prop) (stop : α → Bool) : List α → Prop
  | [] => True
  | x :: l => ok x ∧ (stop x = true ∨ Reached ok stop l)

instance Reached.decide (ok : α → Prop) (stop : α → Bool) [DecidablePred ok] :
    ∀ l, Decidable (Reached ok stop l)
  | [] => isTrue trivial
  | _ :: l => @instDecidableAnd _ _ _ (@instDecidableOr _ _ _ (Reached.decide ok stop l))

theorem Reached.all {ok : α → Prop} {stop : α → Bool} (h : Reached ok stop l)
    (hl : l.any stop = false) : ∀ x ∈ l, ok x := by
  induction l with
  | nil => simp
  | cons x l ih =>
    obtain ⟨hx, hrest⟩ := h
    simp only [List.any_cons, Bool.or_eq_false_iff] at hl
    rw [hl.1] at hrest
    exact List.forall_mem_cons.mpr ⟨hx, ih (hrest.resolve_left nofun) hl.2⟩

theorem Reached.of_all {ok : α → Prop} {stop : α → Bool} (h : ∀ x ∈ l, ok x) : Reached ok stop l := by
  induction l with
  | nil => trivial
  | cons x l ih =>
    obtain ⟨hx, hl⟩ := List.forall_mem_cons.mp h
    exact ⟨hx, .inr (ih hl)⟩

/-- The loop whose body reads something and then decides whether to stop. -/
theorem anyM_eq {ok : α → Prop} [DecidablePred ok] {stop : α → Bool} {p : α → Option Bool}
    (hp : ∀ x, p x = if ok x then some (stop x) else none) (l : List α) :
    l.anyM p = if Reached ok stop l then some (l.any stop) else none := by
  induction l with
  | nil => rfl
  | cons x l ih =>
    rw [List.anyM_cons, hp, ih]
    by_cases hx : ok x
    · cases hs : stop x
      · by_cases hl : Reached ok stop l <;> simp [Reached, hx, hs, hl]
      · simp [Reached, hx, hs]
    · simp [Reached, hx]

/-- The loop that writes to one account after the other. -/
theorem foldlM_modify {id : α → UInt64} {f : α → UInt64 → UInt64} {l : List α}
    (hl : ∀ x ∈ l, (id x).toNat < n) (v : Vector UInt64 n) :
    l.foldlM (fun acc x => modifyAccount acc (id x) (f x)) v =
      some (l.foldl (fun acc x => acc.setIfInBounds (id x).toNat (f x (balance acc (id x)))) v) := by
  induction l generalizing v with
  | nil => rfl
  | cons x l ih =>
    obtain ⟨hx, hl⟩ := List.forall_mem_cons.mp hl
    rw [List.foldlM_cons, modifyAccount_eq, if_pos hx]
    exact ih hl _

-- ---------------------------------------------------------------------------
-- The operations
-- ---------------------------------------------------------------------------

namespace SmallBank

variable {n : Nat} (b : SmallBank n)

/-- `isShort` of an account that exists. -/
def short (payor : UInt64 × UInt64) : Bool := balance b.checkingAccounts payor.1 < payor.2

/-- `isFull` of an account that exists. -/
def full (perHead userId : UInt64) : Bool := uint64Max - balance b.checkingAccounts userId < perHead

/-- What each operation reaches exists. -/
def Reaches : BankCall → Prop
  | .transactionSavings u _ | .depositChecking u _ | .writeCheck u _ | .amalgamate u | .query u =>
    u.toNat < n
  | .sendPayment u w amount =>
    u.toNat < n ∧ (balance b.checkingAccounts u < amount ∨ w.toNat < n)
  | .transactionSplit payors party =>
    party ≠ [] ∧ Reached (fun payor => payor.1.toNat < n) b.short payors ∧
      (payors.any b.short = true ∨
        Reached (fun u => u.toNat < n) (b.full (perHead payors party)) party)

end SmallBank

/-- All accounts an operation names. -/
def BankCall.accounts : BankCall → List UInt64
  | .transactionSavings u _ | .depositChecking u _ | .writeCheck u _ | .amalgamate u | .query u => [u]
  | .sendPayment u w _ => [u, w]
  | .transactionSplit payors party => payors.map Prod.fst ++ party

namespace SmallBank

variable {n : Nat} {b : SmallBank n}

theorem transactionSavings_eq : b.transactionSavings u amount =
    if u.toNat < n then
      if uint64Max - balance b.savingAccounts u < amount then some b
      else some { b with savingAccounts := b.savingAccounts.setIfInBounds u.toNat
                           (balance b.savingAccounts u + amount) }
    else none := by
  rw [transactionSavings, getElem?_account, modifyAccount_eq]
  by_cases hu : u.toNat < n
  · rw [if_pos hu, if_pos hu, if_pos hu, Option.bind_eq_bind, Option.bind_some]
    rfl
  · rw [if_neg hu, if_neg hu, if_neg hu]
    rfl

theorem depositChecking_eq : b.depositChecking u amount =
    if u.toNat < n then
      if uint64Max - balance b.checkingAccounts u < amount then some b
      else some { b with checkingAccounts := b.checkingAccounts.setIfInBounds u.toNat
                           (balance b.checkingAccounts u + amount) }
    else none := by
  rw [depositChecking, getElem?_account, modifyAccount_eq]
  by_cases hu : u.toNat < n
  · rw [if_pos hu, if_pos hu, if_pos hu, Option.bind_eq_bind, Option.bind_some]
    rfl
  · rw [if_neg hu, if_neg hu, if_neg hu]
    rfl

theorem writeCheck_eq : b.writeCheck u amount =
    if u.toNat < n then
      if balance b.checkingAccounts u < amount then some b
      else some { b with checkingAccounts := b.checkingAccounts.setIfInBounds u.toNat
                           (balance b.checkingAccounts u - amount) }
    else none := by
  rw [writeCheck, getElem?_account, modifyAccount_eq]
  by_cases hu : u.toNat < n
  · rw [if_pos hu, if_pos hu, if_pos hu, Option.bind_eq_bind, Option.bind_some]
    rfl
  · rw [if_neg hu, if_neg hu, if_neg hu]
    rfl

theorem amalgamate_eq : b.amalgamate u =
    if u.toNat < n then
      if uint64Max - balance b.checkingAccounts u < balance b.savingAccounts u then some b
      else some {
        checkingAccounts := b.checkingAccounts.setIfInBounds u.toNat
          (balance b.checkingAccounts u + balance b.savingAccounts u)
        savingAccounts := b.savingAccounts.setIfInBounds u.toNat 0 }
    else none := by
  rw [amalgamate, getElem?_account, getElem?_account]
  by_cases hu : u.toNat < n
  · rw [if_pos hu, if_pos hu, if_pos hu, Option.bind_eq_bind, Option.bind_some,
      Option.bind_eq_bind, Option.bind_some, modifyAccount_eq, modifyAccount_eq, if_pos hu, if_pos hu]
    rfl
  · rw [if_neg hu, if_neg hu, if_neg hu]
    rfl

theorem query_eq : b.query u =
    if u.toNat < n then some (balance b.checkingAccounts u, balance b.savingAccounts u) else none := by
  rw [query, getElem?_account, getElem?_account]
  by_cases hu : u.toNat < n
  · rw [if_pos hu, if_pos hu, if_pos hu]
    rfl
  · rw [if_neg hu, if_neg hu, if_neg hu]
    rfl

/-- The account paid is not reached where the payer has not the amount. -/
theorem sendPayment_eq : b.sendPayment u w amount =
    if u.toNat < n then
      if balance b.checkingAccounts u < amount then some b
      else if w.toNat < n then
        if uint64Max - balance b.checkingAccounts w < amount then some b
        else
          let accounts := b.checkingAccounts.setIfInBounds u.toNat
            (balance b.checkingAccounts u - amount)
          some { b with checkingAccounts := accounts.setIfInBounds w.toNat (balance accounts w + amount) }
      else none
    else none := by
  rw [sendPayment, getElem?_account, getElem?_account, modifyAccount_eq]
  by_cases hu : u.toNat < n
  · rw [if_pos hu, if_pos hu, if_pos hu, Option.bind_eq_bind, Option.bind_some]
    by_cases hs : balance b.checkingAccounts u < amount
    · rw [if_pos hs, if_pos hs]
      rfl
    · rw [if_neg hs, if_neg hs]
      by_cases hw : w.toNat < n
      · rw [if_pos hw, if_pos hw, Option.bind_eq_bind, Option.bind_some, Option.bind_some]
        simp only [modifyAccount_eq, if_pos hw]
        rfl
      · rw [if_neg hw, if_neg hw]
        rfl
  · rw [if_neg hu, if_neg hu, if_neg hu]
    rfl

/-- The two loops that move the amounts. -/
def splitAccounts (b : SmallBank n) (payors : List (UInt64 × UInt64)) (party : List UInt64) :
    Vector UInt64 n :=
  let credited := payors.foldl (fun acc payor =>
    acc.setIfInBounds payor.1.toNat (balance acc payor.1 + payor.2)) b.checkingAccounts
  party.foldl (fun acc u =>
    acc.setIfInBounds u.toNat (balance acc u - perHead payors party)) credited

instance (c : BankCall) : Decidable (b.Reaches c) := by
  unfold Reaches
  split <;> infer_instance

theorem anyM_isShort : payors.anyM b.isShort =
    if Reached (fun payor => payor.1.toNat < n) b.short payors then some (payors.any b.short)
    else none := by
  refine anyM_eq (fun payor => ?_) payors
  rw [isShort, getElem?_account]
  split
  · simp only [Option.pure_def, Option.bind_eq_bind, Option.bind_some, short]
  · simp only [Option.bind_eq_bind, Option.bind_none]

theorem anyM_isFull : party.anyM (b.isFull ph) =
    if Reached (fun u => u.toNat < n) (b.full ph) party then some (party.any (b.full ph))
    else none := by
  refine anyM_eq (fun u => ?_) party
  rw [isFull, getElem?_account]
  split
  · simp only [Option.pure_def, Option.bind_eq_bind, Option.bind_some, full]
  · simp only [Option.bind_eq_bind, Option.bind_none]

theorem transactionSplit_eq : b.transactionSplit payors party =
    if b.Reaches (.transactionSplit payors party) then
      if payors.any b.short || party.any (b.full (perHead payors party)) then some b
      else some { b with checkingAccounts := b.splitAccounts payors party }
    else none := by
  rw [transactionSplit, anyM_isShort, anyM_isFull]
  by_cases hne : party = []
  · have hno : ¬ b.Reaches (.transactionSplit payors party) := fun h => h.1 hne
    rw [if_pos hne, if_neg hno]
    rfl
  rw [if_neg hne]
  by_cases hp : Reached (fun payor => payor.1.toNat < n) b.short payors
  · rw [if_pos hp, Option.bind_eq_bind, Option.bind_some]
    cases hs : payors.any b.short with
    | true =>
      rw [if_pos rfl, if_pos ⟨hne, hp, .inl hs⟩, Bool.true_or, if_pos rfl]
      rfl
    | false =>
      rw [if_neg nofun, Bool.false_or]
      by_cases hq : Reached (fun u => u.toNat < n) (b.full (perHead payors party)) party
      · rw [if_pos hq, if_pos ⟨hne, hp, .inr hq⟩, Option.bind_eq_bind, Option.bind_some]
        cases hf : party.any (b.full (perHead payors party)) with
        | true =>
          rw [if_pos rfl, if_pos rfl]
          rfl
        | false =>
          rw [if_neg nofun, if_neg nofun, foldlM_modify (hp.all hs)]
          simp only [Option.bind_some, foldlM_modify (hq.all hf)]
          rfl
      · have hno : ¬ b.Reaches (.transactionSplit payors party) := fun h =>
          h.2.2.elim (fun h => by rw [hs] at h; cases h) hq
        rw [if_neg hq, if_neg hno]
        rfl
  · have hno : ¬ b.Reaches (.transactionSplit payors party) := fun h => hp h.2.1
    rw [if_neg hp, if_neg hno]
    rfl

theorem isSome_guard {p : Prop} [Decidable p] {x : Option α} (hx : x.isSome = true) :
    (if p then x else none).isSome ↔ p := by
  split
  · exact iff_of_true hx ‹_›
  · exact iff_of_false nofun ‹_›

/-- An operation reads outside the accounts, or divides by zero, exactly where
something it reaches does not exist. -/
theorem call_isSome (b : SmallBank n) (c : BankCall) : (b.call c).isSome ↔ b.Reaches c := by
  have hbind {α β : Type} (x : Option α) (f : α → β) : (x >>= fun a => some (f a)).isSome = x.isSome := by
    cases x <;> rfl
  cases c with
  | transactionSavings u amount =>
    rw [call, Option.pure_def, hbind, transactionSavings_eq]
    exact isSome_guard (by split <;> rfl)
  | depositChecking u amount =>
    rw [call, Option.pure_def, hbind, depositChecking_eq]
    exact isSome_guard (by split <;> rfl)
  | writeCheck u amount =>
    rw [call, Option.pure_def, hbind, writeCheck_eq]
    exact isSome_guard (by split <;> rfl)
  | amalgamate u =>
    rw [call, Option.pure_def, hbind, amalgamate_eq]
    exact isSome_guard (by split <;> rfl)
  | query u =>
    rw [call, Option.pure_def, hbind, query_eq]
    exact isSome_guard rfl
  | transactionSplit payors party =>
    rw [call, Option.pure_def, hbind, transactionSplit_eq]
    exact isSome_guard (by split <;> rfl)
  | sendPayment u w amount =>
    rw [call, Option.pure_def, hbind, sendPayment_eq, Reaches]
    by_cases hu : u.toNat < n
    · by_cases hs : balance b.checkingAccounts u < amount
      · rw [if_pos hu, if_pos hs]
        exact iff_of_true rfl ⟨hu, .inl hs⟩
      · rw [if_pos hu, if_neg hs]
        have hiff : (u.toNat < n ∧ (balance b.checkingAccounts u < amount ∨ w.toNat < n)) ↔ w.toNat < n :=
          ⟨fun h => h.2.resolve_left hs, fun h => ⟨hu, .inr h⟩⟩
        rw [hiff]
        exact isSome_guard (by split <;> rfl)
    · rw [if_neg hu]
      exact iff_of_false nofun fun h => hu h.1

end SmallBank

/-- The operation is one on accounts of a bank of `n`. -/
def BankCall.OnAccounts (n : Nat) (c : BankCall) : Prop := ∀ u ∈ c.accounts, u.toNat < n

namespace SmallBank

theorem reaches_of_onAccounts (b : SmallBank n) {c : BankCall} (h : c.OnAccounts n)
    (hparty : ∀ payors, c ≠ .transactionSplit payors []) : b.Reaches c := by
  cases c with
  | transactionSavings | depositChecking | writeCheck | amalgamate | query =>
    exact h _ (List.mem_singleton_self _)
  | sendPayment u w amount => exact ⟨h u (by simp [BankCall.accounts]), .inr (h w (by simp [BankCall.accounts]))⟩
  | transactionSplit payors party =>
    refine ⟨fun hne => hparty payors (hne ▸ rfl), ?_, .inr ?_⟩
    · exact .of_all fun payor hp => h _ (List.mem_append_left _ (List.mem_map_of_mem hp))
    · exact .of_all fun u hu => h u (List.mem_append_right _ hu)

/-- An operation that names an account the bank has not got changes nothing. -/
theorem call_unchanged (b : SmallBank n) {c : BankCall} (h : b.call c = some res)
    (hc : ¬ c.OnAccounts n) : res.1 = b := by
  have hr : b.Reaches c := (call_isSome b c).mp (by rw [h]; rfl)
  cases c with
  | transactionSavings | depositChecking | writeCheck | amalgamate | query =>
    exact absurd (by simpa [BankCall.OnAccounts, BankCall.accounts, Reaches] using hr) hc
  | sendPayment u w amount =>
    obtain ⟨hu, hw⟩ := hr
    have hs : balance b.checkingAccounts u < amount := by
      refine hw.resolve_right fun hw => hc fun x hx => ?_
      rcases List.mem_cons.mp hx with rfl | hx
      · exact hu
      · exact List.mem_singleton.mp hx ▸ hw
    rw [call, sendPayment_eq, if_pos hu, if_pos hs] at h
    cases h
    rfl
  | transactionSplit payors party =>
    have hstop : payors.any b.short || party.any (b.full (perHead payors party)) := by
      by_contra hno
      simp only [Bool.or_eq_true, not_or, Bool.not_eq_true] at hno
      have hparty := hr.2.2.resolve_left (by rw [hno.1]; nofun)
      refine hc fun x hx => ?_
      rcases List.mem_append.mp hx with hx | hx
      · obtain ⟨payor, hp, rfl⟩ := List.mem_map.mp hx
        exact hr.2.1.all hno.1 payor hp
      · exact hparty.all hno.2 x hx
    rw [call, transactionSplit_eq, if_pos hr, if_pos hstop] at h
    cases h
    rfl

end SmallBank

end HotStuffTx
