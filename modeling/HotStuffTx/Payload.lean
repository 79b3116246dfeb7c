import HotStuffTx.App
import HotStuffTx.Accounts

/-!
# Client payloads

`Spells` is the payload format the comments of `small_bank.cpp` give.
`execute_transaction` gets a bare pointer: it reads past the payload where the
payload spells out nothing, and past the accounts where what it reaches of the
operation does not exist.
-/

namespace HotStuffTx

/-- A split's payors in a payload. -/
def flatPayors (payors : List (UInt64 × UInt64)) : List UInt64 :=
  payors.flatMap fun payor => [payor.1, payor.2]

/-- The payload spells out the operation, possibly followed by more; `none` is a
transaction type that does not exist. -/
inductive Spells : List UInt64 → Option BankCall → Prop
  | transactionSavings (ht : t.toNat = 0) :
    Spells (t :: userId :: amount :: rest) (some (.transactionSavings userId amount))
  | depositChecking (ht : t.toNat = 1) :
    Spells (t :: userId :: amount :: rest) (some (.depositChecking userId amount))
  | writeCheck (ht : t.toNat = 2) :
    Spells (t :: userId :: amount :: rest) (some (.writeCheck userId amount))
  | sendPayment (ht : t.toNat = 3) :
    Spells (t :: fromUserId :: toUserId :: amount :: rest)
      (some (.sendPayment fromUserId toUserId amount))
  | transactionSplit (ht : t.toNat = 4) (hn : nPayors.toNat = payors.length)
    (hn' : payors.length < 2 ^ 31) (hp : partySize.toNat = party.length)
    (hp' : party.length < 2 ^ 31) :
    Spells (t :: nPayors :: (flatPayors payors ++ partySize :: (party ++ rest)))
      (some (.transactionSplit payors party))
  | amalgamate (ht : t.toNat = 5) : Spells (t :: userId :: rest) (some (.amalgamate userId))
  | query (ht : t.toNat = 6) : Spells (t :: userId :: rest) (some (.query userId))
  | unknown (ht : 7 ≤ t.toNat) : Spells (t :: rest) none

-- ---------------------------------------------------------------------------
-- The reader and the format
-- ---------------------------------------------------------------------------

theorem readPayors_eq_some : readPayors k l = some (payors, rest) ↔
    payors.length = k ∧ l = flatPayors payors ++ rest := by
  induction k generalizing l payors with
  | zero =>
    constructor
    · intro h
      cases h
      exact ⟨rfl, rfl⟩
    · rintro ⟨hk, rfl⟩
      rw [List.length_eq_zero_iff.mp hk]
      rfl
  | succ k ih =>
    match l with
    | [] | [_] =>
      refine iff_of_false nofun ?_
      rintro ⟨hk, hl⟩
      cases payors with
      | nil => cases hk
      | cons payor payors => simp [flatPayors] at hl
    | payorId :: payorAmount :: l =>
      constructor
      · intro h
        obtain ⟨⟨ps, r⟩, hr, heq⟩ := Option.bind_eq_some_iff.mp h
        cases heq
        obtain ⟨hk, hl⟩ := ih.mp hr
        exact ⟨congrArg (· + 1) hk, by rw [hl]; rfl⟩
      · rintro ⟨hk, hl⟩
        cases payors with
        | nil => cases hk
        | cons payor payors =>
          simp only [flatPayors, List.flatMap_cons, List.cons_append, List.nil_append,
            List.cons.injEq] at hl
          obtain ⟨rfl, rfl, hl⟩ := hl
          have hr := ih.mpr ⟨Nat.succ.inj hk, hl⟩
          simp [readPayors, hr]

theorem readParty_eq_some : readParty k l = some party ↔ party.length = k ∧ party <+: l := by
  induction k generalizing l party with
  | zero =>
    constructor
    · intro h
      cases h
      exact ⟨rfl, List.nil_prefix⟩
    · rintro ⟨hk, -⟩
      rw [List.length_eq_zero_iff.mp hk]
      rfl
  | succ k ih =>
    match l with
    | [] =>
      refine iff_of_false nofun ?_
      rintro ⟨hk, hl⟩
      rw [List.prefix_nil.mp hl] at hk
      cases hk
    | userId :: l =>
      constructor
      · intro h
        obtain ⟨ps, hr, heq⟩ := Option.bind_eq_some_iff.mp h
        cases heq
        obtain ⟨hk, hl⟩ := ih.mp hr
        exact ⟨congrArg (· + 1) hk, (List.prefix_cons_inj userId).mpr hl⟩
      · rintro ⟨hk, hl⟩
        cases party with
        | nil => cases hk
        | cons u party =>
          obtain ⟨rfl, hl'⟩ := List.cons_prefix_cons.mp hl
          have hr := ih.mpr ⟨Nat.succ.inj hk, hl'⟩
          simp [readParty, hr]

theorem readSplit_eq_some : readSplit args = some c ↔ ∃ nPayors payors partySize party rest,
    args = nPayors :: (flatPayors payors ++ partySize :: (party ++ rest)) ∧
    nPayors.toNat = payors.length ∧ payors.length < 2 ^ 31 ∧
    partySize.toNat = party.length ∧ party.length < 2 ^ 31 ∧ c = .transactionSplit payors party := by
  constructor
  · intro h
    cases args with
    | nil => cases h
    | cons nPayors args =>
      simp only [readSplit] at h
      split at h
      · cases h
      rename_i hn
      split at h
      · rename_i payors partySize rest hr
        obtain ⟨hk, rfl⟩ := readPayors_eq_some.mp hr
        split at h
        · cases h
        rename_i hp
        obtain ⟨party, hq, rfl⟩ := Option.map_eq_some_iff.mp h
        obtain ⟨hm, rest, rfl⟩ := readParty_eq_some.mp hq
        exact ⟨nPayors, payors, partySize, party, rest, rfl, hk.symm, by omega, hm.symm, by omega, rfl⟩
      · cases h
  · rintro ⟨nPayors, payors, partySize, party, rest, rfl, hn, hn', hp, hp', rfl⟩
    have hpayors : readPayors nPayors.toNat (flatPayors payors ++ partySize :: (party ++ rest)) =
        some (payors, partySize :: (party ++ rest)) := readPayors_eq_some.mpr ⟨hn.symm, rfl⟩
    have hparty : readParty partySize.toNat (party ++ rest) = some party :=
      readParty_eq_some.mpr ⟨hp.symm, List.prefix_append _ _⟩
    simp only [readSplit, hpayors, hparty, Option.map_some]
    rw [if_neg (by omega), if_neg (by omega)]

theorem Spells.read (h : Spells payload c) : readTransaction payload = some c := by
  cases h with
  | transactionSplit ht hn hn' hp hp' =>
    simp only [readTransaction, ht]
    rw [readSplit_eq_some.mpr ⟨_, _, _, _, _, rfl, hn, hn', hp, hp', rfl⟩]
    rfl
  | @unknown t rest ht =>
    obtain ⟨k, hk⟩ := Nat.exists_eq_add_of_le' ht
    simp only [readTransaction, hk]
  | _ ht => simp only [readTransaction, ht]

theorem Spells.of_read (h : readTransaction payload = some c) : Spells payload c := by
  cases payload with
  | nil => cases h
  | cons t args =>
    simp only [readTransaction] at h
    split at h
    case h_5 ht =>
      obtain ⟨c, hc, rfl⟩ := Option.map_eq_some_iff.mp h
      obtain ⟨nPayors, payors, partySize, party, rest, rfl, hn, hn', hp, hp', rfl⟩ :=
        readSplit_eq_some.mp hc
      exact .transactionSplit ht hn hn' hp hp'
    case h_8 h0 h1 h2 h3 h4 h5 h6 =>
      cases h
      refine .unknown (Nat.le_of_not_lt fun hlt => ?_)
      obtain h | h | h | h | h | h | h : t.toNat = 0 ∨ t.toNat = 1 ∨ t.toNat = 2 ∨ t.toNat = 3 ∨
          t.toNat = 4 ∨ t.toNat = 5 ∨ t.toNat = 6 := by omega
      exacts [h0 h, h1 h, h2 h, h3 h, h4 h, h5 h, h6 h]
    all_goals
      rename_i ht
      split at h
      · cases h
        constructor
        exact ht
      · cases h

theorem readTransaction_eq_some : readTransaction payload = some c ↔ Spells payload c :=
  ⟨Spells.of_read, Spells.read⟩

-- ---------------------------------------------------------------------------
-- Execution
-- ---------------------------------------------------------------------------

theorem SmallBank.executeTransaction_of_spells (b : SmallBank n) (h : Spells payload c) :
    b.executeTransaction payload = c.elim (some (b, (0, 0))) b.call := by
  simp only [executeTransaction, h.read]
  cases c <;> rfl

theorem SmallBank.spells_of_isSome {b : SmallBank n} (h : (b.executeTransaction payload).isSome) :
    ∃ c, Spells payload c := by
  cases hr : readTransaction payload with
  | none => simp [executeTransaction, hr] at h
  | some c => exact ⟨c, .of_read hr⟩

/-- The commit callback reads only its data, and leaves the bank alone unless
the payload is a whole operation on its accounts, exactly where the payload
spells out an operation and whatever that reaches exists. -/
theorem execute_transaction_in_bounds (cmd : CommandDummy) (b : SmallBank n) :
    ((b.executeTransaction cmd.payload).isSome ∧
      ∀ res, b.executeTransaction cmd.payload = some res →
        (¬ ∃ c, Spells cmd.payload (some c) ∧ c.OnAccounts n) → res.1 = b) ↔
    ∃ c, Spells cmd.payload c ∧ ∀ op ∈ c, b.Reaches op := by
  constructor
  · rintro ⟨hsome, -⟩
    obtain ⟨c, hc⟩ := SmallBank.spells_of_isSome hsome
    refine ⟨c, hc, fun op hop => ?_⟩
    obtain rfl := Option.mem_def.mp hop
    rw [b.executeTransaction_of_spells hc] at hsome
    exact (b.call_isSome op).mp hsome
  · rintro ⟨c, hc, hreach⟩
    rw [b.executeTransaction_of_spells hc]
    cases c with
    | none =>
      refine ⟨rfl, fun res hres _ => ?_⟩
      cases hres
      rfl
    | some op =>
      refine ⟨(b.call_isSome op).mpr (hreach op rfl), fun res hres hno => ?_⟩
      exact b.call_unchanged hres fun hop => hno ⟨op, hc, hop⟩

/-- An empty payload, a deposit to an account the bank has not got, and a split
with no party. -/
theorem execute_transaction_outOfBounds :
    [[], [1, 5, 50], [4, 1, 0, 10, 0]].map twoAccounts.executeTransaction = [none, none, none] := by
  decide +kernel

end HotStuffTx
