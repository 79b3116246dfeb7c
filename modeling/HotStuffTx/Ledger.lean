import HotStuffTx.Split

/-!
# The ledger law of the simple operations

The exact ledger keeps unbounded integers and has no arithmetic to wrap. Each
operation other than a split either is rejected and leaves the bank alone, or
does to the 64-bit balances what it does to the exact ones.
-/

namespace HotStuffTx

/-- The exact balances of all accounts. -/
@[ext]
structure Ledger where
  checking : Nat → ℤ
  saving : Nat → ℤ

/-- The operation moves money for one or two users, unlike a split. -/
def BankCall.Simple : BankCall → Prop
  | .transactionSplit .. => False
  | _ => True

/-- What an accepted operation adds to the sum of all balances. -/
def BankCall.flow : BankCall → ℤ
  | .transactionSavings _ amount | .depositChecking _ amount => amount.toNat
  | .writeCheck _ amount => -amount.toNat
  | .sendPayment .. | .transactionSplit .. | .amalgamate _ | .query _ => 0

namespace Ledger

/-- What an operation is for, in exact arithmetic. A payment is taken before it is given. -/
def apply (l : Ledger) : BankCall → Ledger
  | .transactionSavings u amount =>
    { l with saving := Function.update l.saving u.toNat (l.saving u.toNat + amount.toNat) }
  | .depositChecking u amount =>
    { l with checking := Function.update l.checking u.toNat (l.checking u.toNat + amount.toNat) }
  | .writeCheck u amount =>
    { l with checking := Function.update l.checking u.toNat (l.checking u.toNat - amount.toNat) }
  | .amalgamate u =>
    { checking := Function.update l.checking u.toNat (l.checking u.toNat + l.saving u.toNat)
      saving := Function.update l.saving u.toNat 0 }
  | .sendPayment u w amount =>
    let taken := Function.update l.checking u.toNat (l.checking u.toNat - amount.toNat)
    { l with checking := Function.update taken w.toNat (taken w.toNat + amount.toNat) }
  | .transactionSplit .. | .query _ => l

/-- The operation fits: nothing falls below zero or reaches `2 ^ 64`. A user
paying itself needs room for the amount beside the balance it keeps. -/
def Accepts (l : Ledger) : BankCall → Prop
  | .transactionSavings u amount => l.saving u.toNat + amount.toNat < 2 ^ 64
  | .depositChecking u amount => l.checking u.toNat + amount.toNat < 2 ^ 64
  | .writeCheck u amount => amount.toNat ≤ l.checking u.toNat
  | .amalgamate u => l.checking u.toNat + l.saving u.toNat < 2 ^ 64
  | .sendPayment u w amount =>
    amount.toNat ≤ l.checking u.toNat ∧ l.checking w.toNat + amount.toNat < 2 ^ 64
  | .transactionSplit .. | .query _ => True

instance (l : Ledger) (c : BankCall) : Decidable (l.Accepts c) :=
  match c with
  | .transactionSavings _ _ | .depositChecking _ _ | .amalgamate _ => Int.decLt ..
  | .writeCheck _ _ => Int.decLe ..
  | .sendPayment _ _ _ => instDecidableAnd
  | .transactionSplit .. | .query _ => instDecidableTrue

/-- One operation on the exact ledger. -/
def step (l : Ledger) (c : BankCall) : Ledger := if l.Accepts c then l.apply c else l

/-- What one operation adds to the sum. -/
def gain (l : Ledger) (c : BankCall) : ℤ := if l.Accepts c then c.flow else 0

/-- A sequence of operations on the exact ledger. -/
def run (l : Ledger) (cs : List BankCall) : Ledger := cs.foldl step l

/-- What a sequence of operations adds to the sum. -/
def gains : Ledger → List BankCall → ℤ
  | _, [] => 0
  | l, c :: cs => l.gain c + gains (l.step c) cs

/-- The sum over the first `n` accounts. -/
def total (n : Nat) (l : Ledger) : ℤ := ∑ i : Fin n, (l.checking i + l.saving i)

end Ledger

namespace SmallBank

/-- The exact ledger the 64-bit balances stand for. -/
def ledger (b : SmallBank n) : Ledger where
  checking i := (b.checkingAccounts[i]?.getD 0).toNat
  saving i := (b.savingAccounts[i]?.getD 0).toNat

/-- A sequence of operations. -/
def calls (b : SmallBank n) (cs : List BankCall) : Option (SmallBank n) :=
  cs.foldlM (fun b c => (b.call c).map Prod.fst) b

end SmallBank

/-- The law of one operation, from `b` to `b'`. -/
structure Lawful (c : BankCall) (b b' : SmallBank n) : Prop where
  accepted : b.ledger.Accepts c → b'.ledger = b.ledger.apply c ∧ (b'.total : ℤ) = b.total + c.flow
  rejected : ¬ b.ledger.Accepts c → b' = b
  others : ∀ i, (∀ u ∈ c.accounts, u.toNat ≠ i) →
    b'.checkingAccounts[i]? = b.checkingAccounts[i]? ∧ b'.savingAccounts[i]? = b.savingAccounts[i]?

-- ---------------------------------------------------------------------------
-- The exact ledger
-- ---------------------------------------------------------------------------

theorem sum_update {k : Nat} (hk : k < n) (f : Nat → ℤ) (x : ℤ) :
    ∑ i : Fin n, Function.update f k x i = ∑ i : Fin n, f i + (x - f k) := by
  have hterm (i : Fin n) : Function.update f k x i =
      f i + if i = ⟨k, hk⟩ then x - f k else 0 := by
    by_cases hi : i.val = k
    · simp [Fin.ext_iff, hi]
    · simp [Fin.ext_iff, hi]
  simp only [hterm, Finset.sum_add_distrib, Finset.sum_ite_eq', Finset.mem_univ, ↓reduceIte]

namespace Ledger

variable {n : Nat}

/-- The sum moves by the flow of the operation. -/
theorem total_apply (l : Ledger) {c : BankCall} (hc : c.Simple) (h : c.OnAccounts n) :
    (l.apply c).total n = l.total n + c.flow := by
  unfold total
  cases c with
  | transactionSplit payors party => exact hc.elim
  | query u => exact (add_zero _).symm
  | transactionSavings u amount =>
    have hu : u.toNat < n := h u (List.mem_singleton_self u)
    simp only [apply, Finset.sum_add_distrib, sum_update hu, BankCall.flow]
    ring
  | depositChecking u amount =>
    have hu : u.toNat < n := h u (List.mem_singleton_self u)
    simp only [apply, Finset.sum_add_distrib, sum_update hu, BankCall.flow]
    ring
  | writeCheck u amount =>
    have hu : u.toNat < n := h u (List.mem_singleton_self u)
    simp only [apply, Finset.sum_add_distrib, sum_update hu, BankCall.flow]
    ring
  | amalgamate u =>
    have hu : u.toNat < n := h u (List.mem_singleton_self u)
    simp only [apply, Finset.sum_add_distrib, sum_update hu, BankCall.flow]
    ring
  | sendPayment u w amount =>
    have hu : u.toNat < n := h u List.mem_cons_self
    have hw : w.toNat < n := h w (List.mem_cons_of_mem _ (List.mem_singleton_self w))
    simp only [apply, Finset.sum_add_distrib, sum_update hu, sum_update hw, BankCall.flow]
    ring

/-- An operation reaches only the accounts it names. -/
theorem apply_others (l : Ledger) (c : BankCall) {i : Nat} (hi : ∀ u ∈ c.accounts, u.toNat ≠ i) :
    (l.apply c).checking i = l.checking i ∧ (l.apply c).saving i = l.saving i := by
  cases c with
  | transactionSplit payors party => exact ⟨rfl, rfl⟩
  | query u => exact ⟨rfl, rfl⟩
  | transactionSavings u amount | depositChecking u amount | writeCheck u amount | amalgamate u =>
    have hu : i ≠ u.toNat := (hi u (List.mem_singleton_self u)).symm
    simp only [apply, Function.update_of_ne hu, and_self]
  | sendPayment u w amount =>
    have hu : i ≠ u.toNat := (hi u List.mem_cons_self).symm
    have hw : i ≠ w.toNat := (hi w (List.mem_cons_of_mem _ (List.mem_singleton_self w))).symm
    simp only [apply, Function.update_of_ne hu, Function.update_of_ne hw, and_self]

end Ledger

-- ---------------------------------------------------------------------------
-- The code against the exact ledger
-- ---------------------------------------------------------------------------

theorem exact_set (v : Vector UInt64 n) {u : UInt64} (hu : u.toNat < n) {x : UInt64} {y : ℤ}
    (hx : (x.toNat : ℤ) = y) :
    (fun i => (((v.setIfInBounds u.toNat x)[i]?.getD 0).toNat : ℤ)) =
      Function.update (fun i => ((v[i]?.getD 0).toNat : ℤ)) u.toNat y := by
  funext i
  by_cases hi : i = u.toNat
  · simp [hi, hu, hx]
  · rw [Function.update_of_ne hi, Vector.getElem?_setIfInBounds, if_neg (Ne.symm hi)]

theorem toNat_add_exact {x y : UInt64} (h : x.toNat + y.toNat < 2 ^ 64) :
    ((x + y).toNat : ℤ) = x.toNat + y.toNat := by
  rw [UInt64.toNat_add, Nat.mod_eq_of_lt h]
  push_cast
  rfl

theorem toNat_sub_exact {x y : UInt64} (h : y.toNat ≤ x.toNat) :
    ((x - y).toNat : ℤ) = x.toNat - y.toNat := by
  rw [UInt64.toNat_sub_of_le _ _ (UInt64.le_iff_toNat_le.mpr h), Nat.cast_sub h]

/-- The guard written as a subtraction from the maximum excludes the overflow. -/
theorem room_iff (x y : UInt64) : ¬ uint64Max - x < y ↔ x.toNat + y.toNat < 2 ^ 64 := by
  have hle : x ≤ uint64Max := by
    have hx := UInt64.toNat_lt x
    rw [UInt64.le_iff_toNat_le]
    show x.toNat ≤ 2 ^ 64 - 1
    omega
  have hmax : uint64Max.toNat = 2 ^ 64 - 1 := rfl
  rw [UInt64.lt_iff_toNat_lt, UInt64.toNat_sub_of_le _ _ hle, hmax]
  have hx := UInt64.toNat_lt x
  omega

theorem funds_iff (x y : UInt64) : ¬ x < y ↔ y.toNat ≤ x.toNat := by
  rw [UInt64.lt_iff_toNat_lt, not_lt]

theorem SmallBank.total_eq (b : SmallBank n) : (b.total : ℤ) = b.ledger.total n := by
  simp only [SmallBank.total, Ledger.total, SmallBank.ledger, Nat.cast_sum, Nat.cast_add]
  refine Finset.sum_congr rfl fun i _ => ?_
  simp

/-- What a result that is either the bank or the exact effect says. -/
theorem Lawful.of_result {b b' : SmallBank n} {c : BankCall} (hc : c.Simple) (h : c.OnAccounts n)
    (hyes : b.ledger.Accepts c → b'.ledger = b.ledger.apply c)
    (hno : ¬ b.ledger.Accepts c → b' = b) : Lawful c b b' := by
  refine ⟨fun ha => ⟨hyes ha, ?_⟩, hno, fun i hi => ?_⟩
  · rw [SmallBank.total_eq, SmallBank.total_eq, hyes ha, Ledger.total_apply _ hc h]
  · by_cases ha : b.ledger.Accepts c
    · have hothers := Ledger.apply_others b.ledger c hi
      rw [← hyes ha] at hothers
      simp only [SmallBank.ledger, Nat.cast_inj, UInt64.toNat_inj] at hothers
      by_cases hi : i < n
      · simpa [hi] using hothers
      · simp [hi]
    · rw [hno ha]
      exact ⟨rfl, rfl⟩

namespace SmallBank

variable {n : Nat} (b : SmallBank n)

/-- An operation that is rejected by its guard `g` and otherwise gives `b₁`. -/
theorem lawful_of_guard {b b₁ : SmallBank n} {c : BankCall} {g : Prop} [Decidable g]
    (hrun : b.call c = (if g then some b else some b₁) >>= fun b' => pure (b', res))
    (hc : c.Simple) (h : c.OnAccounts n) (hiff : b.ledger.Accepts c ↔ ¬ g)
    (hyes : ¬ g → b₁.ledger = b.ledger.apply c) :
    ∃ b' res, b.call c = some (b', res) ∧ Lawful c b b' := by
  rw [hrun]
  by_cases hg : g
  · rw [if_pos hg]
    exact ⟨b, _, rfl, .of_result hc h (fun ha => absurd hg (hiff.mp ha)) fun _ => rfl⟩
  · rw [if_neg hg]
    exact ⟨b₁, _, rfl, .of_result hc h (fun _ => hyes hg) fun hno => absurd (hiff.mpr hg) hno⟩

theorem ite_or_some {p q : Prop} [Decidable p] [Decidable q] (x y : Option α) :
    (if p then x else if q then x else y) = if p ∨ q then x else y := by
  by_cases hp : p
  · rw [if_pos hp, if_pos (.inl hp)]
  · simp only [hp, false_or, ↓reduceIte]

/-- Every simple operation on accounts of the bank returns and obeys the law. -/
theorem call_lawful (b : SmallBank n) {c : BankCall} (hc : c.Simple) (h : c.OnAccounts n) :
    ∃ b' res, b.call c = some (b', res) ∧ Lawful c b b' := by
  have hcast (x y : UInt64) : ((x.toNat : ℤ) + y.toNat < 2 ^ 64) ↔ x.toNat + y.toNat < 2 ^ 64 := by
    norm_cast
  cases c with
  | transactionSplit payors party => exact hc.elim
  | query u =>
    have hu : u.toNat < n := h u (List.mem_singleton_self u)
    refine ⟨b, _, by rw [call, query_eq, if_pos hu]; rfl, .of_result hc h (fun _ => rfl) fun _ => rfl⟩
  | transactionSavings u amount =>
    have hu : u.toNat < n := h u (List.mem_singleton_self u)
    refine lawful_of_guard (by rw [call, transactionSavings_eq, if_pos hu]) hc h ?_ fun hg => ?_
    · exact (hcast _ _).trans (room_iff _ _).symm
    · exact Ledger.ext rfl (exact_set _ hu (toNat_add_exact ((room_iff _ _).mp hg)))
  | depositChecking u amount =>
    have hu : u.toNat < n := h u (List.mem_singleton_self u)
    refine lawful_of_guard (by rw [call, depositChecking_eq, if_pos hu]) hc h ?_ fun hg => ?_
    · exact (hcast _ _).trans (room_iff _ _).symm
    · exact Ledger.ext (exact_set _ hu (toNat_add_exact ((room_iff _ _).mp hg))) rfl
  | writeCheck u amount =>
    have hu : u.toNat < n := h u (List.mem_singleton_self u)
    refine lawful_of_guard (by rw [call, writeCheck_eq, if_pos hu]) hc h ?_ fun hg => ?_
    · exact Nat.cast_le.trans (funds_iff _ _).symm
    · exact Ledger.ext (exact_set _ hu (toNat_sub_exact ((funds_iff _ _).mp hg))) rfl
  | amalgamate u =>
    have hu : u.toNat < n := h u (List.mem_singleton_self u)
    refine lawful_of_guard (by rw [call, amalgamate_eq, if_pos hu]) hc h ?_ fun hg => ?_
    · exact (hcast _ _).trans (room_iff _ _).symm
    · exact Ledger.ext (exact_set _ hu (toNat_add_exact ((room_iff _ _).mp hg))) (exact_set _ hu rfl)
  | sendPayment u w amount =>
    have hu : u.toNat < n := h u List.mem_cons_self
    have hw : w.toNat < n := h w (List.mem_cons_of_mem _ (List.mem_singleton_self w))
    refine lawful_of_guard (by rw [call, sendPayment_eq, if_pos hu, if_pos hw, ite_or_some]) hc h
      ?_ fun hg => ?_
    · rw [not_or, funds_iff, room_iff]
      exact and_congr Nat.cast_le (hcast _ _)
    · obtain ⟨hfunds, hroom⟩ := not_or.mp hg
      have htaken := exact_set b.checkingAccounts hu (toNat_sub_exact ((funds_iff _ _).mp hfunds))
      have hleft := congrFun htaken w.toNat
      have hfits : (balance (b.checkingAccounts.setIfInBounds u.toNat
          (balance b.checkingAccounts u - amount)) w).toNat + amount.toNat < 2 ^ 64 := by
        rw [funds_iff] at hfunds
        rw [balance_set _ _ _ _ hu]
        -- taking from `w` itself only makes room
        by_cases hwu : w = u
        · rw [if_pos hwu, UInt64.toNat_sub_of_le _ _ (UInt64.le_iff_toNat_le.mpr hfunds)]
          have hlt := UInt64.toNat_lt (balance b.checkingAccounts u)
          omega
        · rw [if_neg hwu]
          exact (room_iff _ _).mp hroom
      have hsum := (toNat_add_exact hfits).trans (congrArg (· + (amount.toNat : ℤ)) hleft)
      refine Ledger.ext ((exact_set _ hw hsum).trans ?_) rfl
      rw [htaken]
      rfl

/-- A sequence of operations does what it does to the exact ledger. -/
theorem calls_exact (b : SmallBank n) {cs : List BankCall}
    (hcs : ∀ c ∈ cs, c.Simple ∧ c.OnAccounts n) :
    ∃ b', b.calls cs = some b' ∧ b'.ledger = b.ledger.run cs ∧
      (b'.total : ℤ) = b.total + b.ledger.gains cs := by
  induction cs generalizing b with
  | nil => exact ⟨b, rfl, rfl, (add_zero _).symm⟩
  | cons c cs ih =>
    obtain ⟨⟨hc, hon⟩, hcs⟩ := List.forall_mem_cons.mp hcs
    obtain ⟨b₁, res, hcall, hlaw⟩ := b.call_lawful hc hon
    obtain ⟨b', hcalls, hledger, htotal⟩ := ih b₁ hcs
    have hstep : b₁.ledger = b.ledger.step c ∧ (b₁.total : ℤ) = b.total + b.ledger.gain c := by
      unfold Ledger.step Ledger.gain
      by_cases ha : b.ledger.Accepts c
      · rw [if_pos ha, if_pos ha]
        exact hlaw.accepted ha
      · rw [if_neg ha, if_neg ha, hlaw.rejected ha]
        exact ⟨rfl, (add_zero _).symm⟩
    refine ⟨b', ?_, ?_, ?_⟩
    · rw [calls, List.foldlM_cons, hcall]
      exact hcalls
    · rw [hledger, hstep.1]
      rfl
    · rw [htotal, hstep.2, hstep.1, Ledger.gains, add_assoc]

end SmallBank

/-- The ledger law: whatever operations went before, the balances are the exact
ones, their sum moved by what the accepted operations bring and take, and the
next operation obeys the law. -/
theorem ledger_law (b : SmallBank n) (cs : List BankCall)
    (hcs : ∀ c ∈ cs, c.Simple ∧ c.OnAccounts n) :
    ∃ b', b.calls cs = some b' ∧ b'.ledger = b.ledger.run cs ∧
      (b'.total : ℤ) = b.total + b.ledger.gains cs ∧
      ∀ c : BankCall, c.Simple → c.OnAccounts n →
        ∃ b'' res, b'.call c = some (b'', res) ∧ Lawful c b' b'' := by
  obtain ⟨b', hcalls, hledger, htotal⟩ := b.calls_exact hcs
  exact ⟨b', hcalls, hledger, htotal, fun c hc hon => b'.call_lawful hc hon⟩

/-- User 1 is full: a deposit is rejected, and after paying user 0 there is room for one. -/
theorem ledger_law_full :
    let b : SmallBank 2 := ⟨#v[5, 18446744073709551615], #v[1, 0]⟩
    let cs : List BankCall := [.depositChecking 1 4, .sendPayment 0 0 5, .sendPayment 1 0 9,
      .depositChecking 1 4, .amalgamate 0]
    ∃ b', b.calls cs = some b' ∧ (b'.total : ℤ) = b.total + 4 := by
  intro b cs
  obtain ⟨b', hcalls, -, htotal, -⟩ := ledger_law b cs
    (by simp [cs, BankCall.Simple, BankCall.OnAccounts, BankCall.accounts])
  have hgains : b.ledger.gains cs = 4 := by decide +kernel
  exact ⟨b', hcalls, by rw [htotal, hgains]⟩

end HotStuffTx
