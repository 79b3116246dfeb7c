import Mathlib

/-!
# Encodings that anything may follow

A value is written as a list of symbols and read back off the front of one. The
law of such a pair leaves what follows the value untouched, so it composes
along a stream; that no encoding is the beginning of another follows from it.
-/

namespace Codec

variable {α σ : Type _} {put : α → List σ} {get : List σ → Option (α × List σ)}
  {ok : α → Prop} {same : α → α → Prop}

/-- What `put` writes of an `ok` value, `get` reads back up to `same`. -/
def RoundTrip (put : α → List σ) (get : List σ → Option (α × List σ)) (ok : α → Prop)
    (same : α → α → Prop) : Prop :=
  ∀ a, ok a → ∀ t, ∃ b, get (put a ++ t) = some (b, t) ∧ same a b

theorem RoundTrip.mono {same' : α → α → Prop} (h : RoundTrip put get ok same)
    (hsame : ∀ a b, same a b → same' a b) : RoundTrip put get ok same' := by
  intro a ha t
  obtain ⟨b, hget, hab⟩ := h a ha t
  exact ⟨b, hget, hsame a b hab⟩

theorem RoundTrip.get_put (h : RoundTrip put get ok Eq) (ha : ok a) (t : List σ) :
    get (put a ++ t) = some (a, t) := by
  obtain ⟨b, hget, rfl⟩ := h a ha t
  exact hget

/-- Two values that start one stream are the same, and so is what follows them. -/
theorem RoundTrip.cancel (h : RoundTrip put get ok same) (he : Equivalence same) (ha : ok a)
    (hb : ok b) (heq : put a ++ s = put b ++ t) : same a b ∧ s = t := by
  obtain ⟨c, hca, hac⟩ := h a ha s
  obtain ⟨d, hdb, hbd⟩ := h b hb t
  rw [heq, hdb] at hca
  obtain ⟨rfl, rfl⟩ := Prod.mk.inj (Option.some.inj hca)
  exact ⟨he.trans hac (he.symm hbd), rfl⟩

/-- Only the encoding of the same value starts with that of another. -/
def PrefixFree (put : α → List σ) (ok : α → Prop) (same : α → α → Prop) : Prop :=
  ∀ a b, ok a → ok b → put a <+: put b → same a b

theorem PrefixFree.injective (h : PrefixFree put ok same) (ha : ok a) (hb : ok b)
    (heq : put a = put b) : same a b :=
  h a b ha hb (heq ▸ List.prefix_rfl)

theorem RoundTrip.prefixFree (h : RoundTrip put get ok same) (he : Equivalence same) :
    PrefixFree put ok same := by
  rintro a b ha hb ⟨t, ht⟩
  exact (h.cancel he ha hb (ht.trans (List.append_nil _).symm)).1

-- ---------------------------------------------------------------------------
-- Lists of known length
-- ---------------------------------------------------------------------------

def getN (get : List σ → Option (α × List σ)) : Nat → List σ → Option (List α × List σ)
  | 0, s => some ([], s)
  | n + 1, s => do
    let (a, s) ← get s
    let (as, s) ← getN get n s
    return (a :: as, s)

theorem RoundTrip.getN (h : RoundTrip put get ok same) (as : List α) (hok : ∀ a ∈ as, ok a)
    (t : List σ) :
    ∃ bs, getN get as.length (as.flatMap put ++ t) = some (bs, t) ∧ List.Forall₂ same as bs := by
  induction as with
  | nil => exact ⟨[], rfl, .nil⟩
  | cons a as ih =>
    obtain ⟨b, hb, hab⟩ := h a (hok a List.mem_cons_self) (as.flatMap put ++ t)
    obtain ⟨bs, hbs, has⟩ := ih fun a ha => hok a (List.mem_cons_of_mem _ ha)
    refine ⟨b :: bs, ?_, .cons hab has⟩
    simp [Codec.getN, List.flatMap_cons, List.append_assoc, hb, hbs]

theorem forall₂_equivalence (he : Equivalence same) : Equivalence (List.Forall₂ same) where
  refl as := List.forall₂_same.mpr fun a _ => he.refl a
  symm h := .flip (h.imp fun _ _ => he.symm)
  trans {as bs cs} h h' := by
    induction h generalizing cs with
    | nil => exact h'
    | cons hab _ ih =>
      cases h' with
      | cons hbc h' => exact .cons (he.trans hab hbc) (ih h')

theorem length_of_getN (h : getN get n s = some (as, t)) : as.length = n := by
  induction n generalizing s as with
  | zero => cases h; rfl
  | succ n ih =>
    obtain ⟨⟨a, s'⟩, -, h⟩ := Option.bind_eq_some_iff.mp h
    obtain ⟨⟨as', s''⟩, has, h⟩ := Option.bind_eq_some_iff.mp h
    cases h
    rw [List.length_cons, ih has]

theorem forall_of_getN (hget : ∀ {s a t}, get s = some (a, t) → ok a)
    (h : getN get n s = some (as, t)) : ∀ a ∈ as, ok a := by
  induction n generalizing s as with
  | zero => cases h; nofun
  | succ n ih =>
    obtain ⟨⟨a, s'⟩, ha, h⟩ := Option.bind_eq_some_iff.mp h
    obtain ⟨⟨as', s''⟩, has, h⟩ := Option.bind_eq_some_iff.mp h
    cases h
    exact List.forall_mem_cons.mpr ⟨hget ha, ih has⟩

-- ---------------------------------------------------------------------------
-- Numbers in little-endian bytes
-- ---------------------------------------------------------------------------

/-- The lowest `k` bytes of `n`. -/
def putLE : Nat → Nat → List UInt8
  | 0, _ => []
  | k + 1, n => UInt8.ofNat n :: putLE k (n / 256)

def getLE : Nat → List UInt8 → Option (Nat × List UInt8)
  | 0, s => some (0, s)
  | _ + 1, [] => none
  | k + 1, b :: s => (getLE k s).map fun r => (b.toNat + 256 * r.1, r.2)

theorem roundTrip_le (k : Nat) : RoundTrip (putLE k) (getLE k) (· < 256 ^ k) Eq := by
  intro n hn t
  refine ⟨n, ?_, rfl⟩
  induction k generalizing n with
  | zero =>
    have : n = 0 := by simpa using hn
    rw [this]
    rfl
  | succ k ih =>
    have hdiv : n / 256 < 256 ^ k := Nat.div_lt_of_lt_mul (by rwa [Nat.pow_succ, Nat.mul_comm] at hn)
    have hbyte : (UInt8.ofNat n).toNat = n % 256 := rfl
    simp only [putLE, List.cons_append, getLE, ih _ hdiv, Option.map_some, hbyte, Nat.mod_add_div]

theorem getLE_lt (h : getLE k s = some (n, t)) : n < 256 ^ k := by
  induction k generalizing s n with
  | zero => cases h; decide
  | succ k ih =>
    cases s with
    | nil => cases h
    | cons b s =>
      obtain ⟨⟨m, s'⟩, hm, h⟩ := Option.map_eq_some_iff.mp h
      cases h
      have := ih hm
      have := b.toNat_lt
      rw [Nat.pow_succ]
      omega

-- ---------------------------------------------------------------------------
-- Lists behind their number
-- ---------------------------------------------------------------------------

variable {put : α → List UInt8} {get : List UInt8 → Option (α × List UInt8)}

/-- The number of items in four bytes, then the items. -/
def putCounted (put : α → List UInt8) (as : List α) : List UInt8 :=
  putLE 4 as.length ++ as.flatMap put

def getCounted (get : List UInt8 → Option (α × List UInt8)) (s : List UInt8) :
    Option (List α × List UInt8) := do
  let (n, s) ← getLE 4 s
  getN get n s

theorem RoundTrip.counted (h : RoundTrip put get ok same) :
    RoundTrip (putCounted put) (getCounted get)
      (fun as => as.length < 2 ^ 32 ∧ ∀ a ∈ as, ok a) (List.Forall₂ same) := by
  rintro as ⟨hlen, hok⟩ t
  obtain ⟨bs, hbs, has⟩ := h.getN as hok t
  refine ⟨bs, ?_, has⟩
  have hn := (roundTrip_le 4).get_put (a := as.length) hlen (as.flatMap put ++ t)
  simp [putCounted, getCounted, List.append_assoc, hn, hbs]

theorem RoundTrip.counted_eq (h : RoundTrip put get ok Eq) :
    RoundTrip (putCounted put) (getCounted get)
      (fun as => as.length < 2 ^ 32 ∧ ∀ a ∈ as, ok a) Eq :=
  h.counted.mono fun _ _ h => by rwa [List.forall₂_eq_eq_eq] at h

theorem of_getCounted (h : getCounted get s = some (as, t)) :
    as.length < 2 ^ 32 ∧ ∃ s', getN get as.length s' = some (as, t) := by
  obtain ⟨⟨n, s'⟩, hn, h⟩ := Option.bind_eq_some_iff.mp h
  have hlen := length_of_getN h
  exact ⟨hlen ▸ getLE_lt hn, s', hlen ▸ h⟩

end Codec
