import HotStuffTx.Accounts

/-!
# Split payments

What `transaction_split` does to each balance, exactly and modulo `2 ^ 64`, and
what a split payment is. The loops that move the amounts add where the payment
takes and take where it adds, and the share is computed of a sum cut to 32 bits.
-/

namespace HotStuffTx

/-- What the payors at account `i` pay together. -/
def paid (payors : List (UInt64 × UInt64)) (i : Nat) : Nat :=
  ((payors.filter (·.1.toNat = i)).map (·.2.toNat)).sum

def totalPaid (payors : List (UInt64 × UInt64)) : Nat := (payors.map (·.2.toNat)).sum

/-- How often account `i` is in the party. -/
def members (party : List UInt64) (i : Nat) : Nat := party.countP (·.toNat = i)

/-- The share of one member: the exact sum, divided and rounded down. -/
def share (payors : List (UInt64 × UInt64)) (party : List UInt64) : Nat :=
  totalPaid payors / party.length

/-- The exact sum of all balances. -/
def SmallBank.total (b : SmallBank n) : Nat :=
  ∑ i : Fin n, (b.checkingAccounts[i].toNat + b.savingAccounts[i].toNat)

/-- Each payor is debited its amount and each member credited the share, without wrapping. -/
structure SplitPays (payors : List (UInt64 × UInt64)) (party : List UInt64) (b b' : SmallBank n) :
    Prop where
  checking : ∀ i : Fin n, b'.checkingAccounts[i].toNat + paid payors i =
    b.checkingAccounts[i].toNat + members party i * share payors party
  saving : b'.savingAccounts = b.savingAccounts

-- ---------------------------------------------------------------------------
-- Sums over the accounts
-- ---------------------------------------------------------------------------

theorem paid_cons (payor : UInt64 × UInt64) (payors : List (UInt64 × UInt64)) (i : Nat) :
    paid (payor :: payors) i = (if payor.1.toNat = i then payor.2.toNat else 0) + paid payors i := by
  by_cases hi : payor.1.toNat = i <;> simp [paid, hi]

theorem members_cons (u : UInt64) (party : List UInt64) (i : Nat) :
    members (u :: party) i = (if u.toNat = i then 1 else 0) + members party i := by
  by_cases hi : u.toNat = i <;> simp [members, hi, Nat.add_comm]

theorem sum_single {k : Nat} (hk : k < n) (x : Nat) : ∑ i : Fin n, (if k = i then x else 0) = x := by
  have hiff (i : Fin n) : k = i ↔ (⟨k, hk⟩ : Fin n) = i := by simp [Fin.ext_iff]
  simp only [hiff, Finset.sum_ite_eq, Finset.mem_univ, ↓reduceIte]

theorem sum_paid {payors : List (UInt64 × UInt64)} (h : ∀ payor ∈ payors, payor.1.toNat < n) :
    ∑ i : Fin n, paid payors i = totalPaid payors := by
  induction payors with
  | nil => simp [paid, totalPaid]
  | cons payor payors ih =>
    obtain ⟨hp, hps⟩ := List.forall_mem_cons.mp h
    simp only [paid_cons, Finset.sum_add_distrib, sum_single hp, ih hps]
    rfl

theorem sum_members {party : List UInt64} (h : ∀ u ∈ party, u.toNat < n) :
    ∑ i : Fin n, members party i = party.length := by
  induction party with
  | nil => simp [members]
  | cons u party ih =>
    obtain ⟨hu, hus⟩ := List.forall_mem_cons.mp h
    simp only [members_cons, Finset.sum_add_distrib, sum_single hu, ih hus, List.length_cons,
      Nat.add_comm]

/-- Only the remainder of the division is lost. -/
theorem SplitPays.total {b b' : SmallBank n} (h : SplitPays payors party b b')
    (hp : ∀ payor ∈ payors, payor.1.toNat < n) (hq : ∀ u ∈ party, u.toNat < n) :
    b'.total + totalPaid payors % party.length = b.total := by
  have hsum : ∑ i : Fin n, (b'.checkingAccounts[i].toNat + paid payors i) =
      ∑ i : Fin n, (b.checkingAccounts[i].toNat + members party i * share payors party) :=
    Finset.sum_congr rfl fun i _ => h.checking i
  rw [Finset.sum_add_distrib, Finset.sum_add_distrib, ← Finset.sum_mul, sum_paid hp,
    sum_members hq, share] at hsum
  have hdiv := Nat.div_add_mod (totalPaid payors) party.length
  simp only [SmallBank.total, h.saving, Finset.sum_add_distrib]
  omega

-- ---------------------------------------------------------------------------
-- What the code does
-- ---------------------------------------------------------------------------

theorem balance_eq (v : Vector UInt64 n) (u : UInt64) (hu : u.toNat < n) : balance v u = v[u.toNat] := by
  simp [balance, hu]

theorem getElem_credit {payors : List (UInt64 × UInt64)} (h : ∀ payor ∈ payors, payor.1.toNat < n)
    (v : Vector UInt64 n) (i : Fin n) :
    (payors.foldl (fun acc payor =>
      acc.setIfInBounds payor.1.toNat (balance acc payor.1 + payor.2)) v)[i] =
      v[i] + UInt64.ofNat (paid payors i) := by
  induction payors generalizing v with
  | nil => simp [paid]
  | cons payor payors ih =>
    obtain ⟨hp, hps⟩ := List.forall_mem_cons.mp h
    rw [List.foldl_cons, ih hps, paid_cons, UInt64.ofNat_add, ← UInt64.add_assoc]
    congr 1
    by_cases hi : payor.1.toNat = i
    · simp [hi, balance_eq v _ hp]
    · simp [hi]

theorem getElem_debit {party : List UInt64} (h : ∀ u ∈ party, u.toNat < n) (ph : UInt64)
    (v : Vector UInt64 n) (i : Fin n) :
    (party.foldl (fun acc u => acc.setIfInBounds u.toNat (balance acc u - ph)) v)[i] =
      v[i] - UInt64.ofNat (members party i) * ph := by
  induction party generalizing v with
  | nil => simp [members]
  | cons u party ih =>
    obtain ⟨hu, hus⟩ := List.forall_mem_cons.mp h
    rw [List.foldl_cons, ih hus, members_cons, UInt64.ofNat_add]
    by_cases hi : u.toNat = i
    · simp [hi, balance_eq v _ hu]
      grind
    · simp [hi]

namespace SmallBank

variable {b : SmallBank n} {payors : List (UInt64 × UInt64)} {party : List UInt64}

/-- The balance after the two loops, modulo `2 ^ 64`. -/
theorem getElem_splitAccounts (hp : ∀ payor ∈ payors, payor.1.toNat < n)
    (hq : ∀ u ∈ party, u.toNat < n) (i : Fin n) :
    ((b.splitAccounts payors party)[i].toNat +
      members party i * (perHead payors party).toNat) % 2 ^ 64 =
      (b.checkingAccounts[i].toNat + paid payors i) % 2 ^ 64 := by
  have heq : (b.splitAccounts payors party)[i] +
      UInt64.ofNat (members party i) * perHead payors party =
      b.checkingAccounts[i] + UInt64.ofNat (paid payors i) := by
    rw [splitAccounts, getElem_debit hq, getElem_credit hp, UInt64.sub_add_cancel]
  have hnat := congrArg UInt64.toNat heq
  simpa [UInt64.toNat_add, UInt64.toNat_mul, UInt64.toNat_ofNat'] using hnat

/-- One of the two validity checks discards the transaction. -/
def Discards (b : SmallBank n) (payors : List (UInt64 × UInt64)) (party : List UInt64) : Prop :=
  payors.any b.short || party.any (b.full (perHead payors party))

/-- What each account pays is what its membership costs it: nothing moves. -/
def Balanced (n : Nat) (payors : List (UInt64 × UInt64)) (party : List UInt64) : Prop :=
  ∀ i : Fin n, paid payors i % 2 ^ 64 = members party i * (perHead payors party).toNat % 2 ^ 64

/-- The payment fits the balances, and adding and taking come to the same modulo `2 ^ 64`. -/
def Coincides (b : SmallBank n) (payors : List (UInt64 × UInt64)) (party : List UInt64) : Prop :=
  ∀ i : Fin n,
    2 * paid payors i % 2 ^ 64 =
      members party i * ((perHead payors party).toNat + share payors party) % 2 ^ 64 ∧
    paid payors i ≤ b.checkingAccounts[i].toNat + members party i * share payors party ∧
    b.checkingAccounts[i].toNat + members party i * share payors party < 2 ^ 64 + paid payors i

instance : Decidable (b.Discards payors party) := by unfold Discards; infer_instance
instance : Decidable (Balanced n payors party) := by unfold Balanced; infer_instance
instance : Decidable (b.Coincides payors party) := by unfold Coincides; infer_instance

theorem splitAccounts_eq_iff (hp : ∀ payor ∈ payors, payor.1.toNat < n)
    (hq : ∀ u ∈ party, u.toNat < n) :
    b.splitAccounts payors party = b.checkingAccounts ↔ Balanced n payors party := by
  have hiff (i : Fin n) : (b.splitAccounts payors party)[i] = b.checkingAccounts[i] ↔
      paid payors i % 2 ^ 64 = members party i * (perHead payors party).toNat % 2 ^ 64 := by
    rw [← UInt64.toNat_inj]
    have hmod := getElem_splitAccounts (b := b) hp hq i
    have hlt := UInt64.toNat_lt (b.splitAccounts payors party)[i]
    have hlt' := UInt64.toNat_lt b.checkingAccounts[i]
    generalize members party i * (perHead payors party).toNat = m at *
    omega
  constructor
  · intro h i
    exact (hiff i).mp (by rw [h])
  · intro h
    ext i hi
    exact congrArg UInt64.toNat ((hiff ⟨i, hi⟩).mpr (h ⟨i, hi⟩))

theorem splitAccounts_pays_iff (hp : ∀ payor ∈ payors, payor.1.toNat < n)
    (hq : ∀ u ∈ party, u.toNat < n) :
    SplitPays payors party b { b with checkingAccounts := b.splitAccounts payors party } ↔
      b.Coincides payors party := by
  have hiff (i : Fin n) : ((b.splitAccounts payors party)[i].toNat + paid payors i =
      b.checkingAccounts[i].toNat + members party i * share payors party) ↔
      2 * paid payors i % 2 ^ 64 =
        members party i * ((perHead payors party).toNat + share payors party) % 2 ^ 64 ∧
      paid payors i ≤ b.checkingAccounts[i].toNat + members party i * share payors party ∧
      b.checkingAccounts[i].toNat + members party i * share payors party < 2 ^ 64 + paid payors i := by
    have hmod := getElem_splitAccounts (b := b) hp hq i
    have hlt := UInt64.toNat_lt (b.splitAccounts payors party)[i]
    have hlt' := UInt64.toNat_lt b.checkingAccounts[i]
    rw [Nat.mul_add]
    generalize members party i * (perHead payors party).toNat = m at *
    generalize members party i * share payors party = q at *
    omega
  exact ⟨fun h i => (hiff i).mp (h.checking i), fun h => ⟨fun i => (hiff i).mpr (h i), rfl⟩⟩

end SmallBank

/-- `transaction_split` leaves the bank alone or is the split payment, losing
less than one unit a member, exactly where it is discarded, nothing moves, or
the payment fits and adding happens to be taking. -/
theorem transaction_split_pays (b : SmallBank n) (payors : List (UInt64 × UInt64))
    (party : List UInt64) (hp : ∀ payor ∈ payors, payor.1.toNat < n)
    (hq : ∀ u ∈ party, u.toNat < n) (hne : party ≠ []) :
    (∃ b', b.transactionSplit payors party = some b' ∧ (b' = b ∨ SplitPays payors party b b' ∧
      b'.total + totalPaid payors % party.length = b.total ∧
      totalPaid payors % party.length < party.length)) ↔
    b.Discards payors party ∨ SmallBank.Balanced n payors party ∨ b.Coincides payors party := by
  have hreach : b.Reaches (.transactionSplit payors party) := by
    refine b.reaches_of_onAccounts (fun u hu => ?_) (fun ps h => hne (by cases h; rfl))
    rcases List.mem_append.mp hu with hu | hu
    · obtain ⟨payor, hm, rfl⟩ := List.mem_map.mp hu
      exact hp payor hm
    · exact hq u hu
  rw [SmallBank.transactionSplit_eq, if_pos hreach]
  by_cases hd : (payors.any b.short || party.any (b.full (SmallBank.perHead payors party))) = true
  · rw [if_pos hd]
    exact iff_of_true ⟨b, rfl, .inl rfl⟩ (.inl hd)
  · rw [if_neg hd]
    have hmoved : (({ b with checkingAccounts := b.splitAccounts payors party } : SmallBank n) = b) ↔
        SmallBank.Balanced n payors party := by
      rw [← SmallBank.splitAccounts_eq_iff (b := b) hp hq]
      refine ⟨fun h => congrArg SmallBank.checkingAccounts h, fun h => ?_⟩
      rw [h]
    have hpays := SmallBank.splitAccounts_pays_iff (b := b) hp hq
    constructor
    · rintro ⟨b', h, hb'⟩
      cases h
      rcases hb' with hb' | ⟨hb', -⟩
      · exact .inr (.inl (hmoved.mp hb'))
      · exact .inr (.inr (hpays.mp hb'))
    · rintro (h | h | h)
      · exact absurd h hd
      · exact ⟨_, rfl, .inl (hmoved.mpr h)⟩
      · have hsplit := hpays.mpr h
        refine ⟨_, rfl, .inr ⟨hsplit, hsplit.total hp hq, Nat.mod_lt _ ?_⟩⟩
        exact List.length_pos_iff.mpr hne

/-- User 0 has not the amount: the split is discarded. -/
theorem transaction_split_pays_discarded :
    let b : SmallBank 3 := ⟨#v[20, 100, 100], #v[0, 0, 0]⟩
    ∃ b', b.transactionSplit [(0, 30)] [0, 1, 2] = some b' ∧
      (b' = b ∨ SplitPays [(0, 30)] [0, 1, 2] b b') := by
  intro b
  obtain ⟨b', hb', hpays⟩ := (transaction_split_pays b [(0, 30)] [0, 1, 2] (by simp) (by simp)
    (by simp)).mpr (.inl (by decide +kernel))
  exact ⟨b', hb', hpays.imp_right And.left⟩

/-- User 0 pays 30 for three: it is given 20 and the other two pay 10 each. -/
theorem transaction_split_pays_swapped :
    let b : SmallBank 3 := ⟨#v[100, 100, 100], #v[0, 0, 0]⟩
    b.transactionSplit [(0, 30)] [0, 1, 2] = some ⟨#v[120, 90, 90], #v[0, 0, 0]⟩ ∧
      ¬ ∃ b', b.transactionSplit [(0, 30)] [0, 1, 2] = some b' ∧
        (b' = b ∨ SplitPays [(0, 30)] [0, 1, 2] b b') := by
  intro b
  have hsplit : b.transactionSplit [(0, 30)] [0, 1, 2] = some ⟨#v[120, 90, 90], #v[0, 0, 0]⟩ := by
    decide +kernel
  refine ⟨hsplit, ?_⟩
  rintro ⟨b', hb', hcase⟩
  cases hsplit.symm.trans hb'
  rcases hcase with heq | hpays
  · exact absurd heq (by decide +kernel)
  · exact absurd (hpays.checking 0) (by decide +kernel)

end HotStuffTx
