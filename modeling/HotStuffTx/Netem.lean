import Mathlib

/-!
# Injected link delay

The `tc` commands the orchestrator runs on each replica host: the delays of all
pairs of replicas, the pairs that concern one host, and one band of a `prio`
qdisc for each of them. What the commands of a host set up is read back from
them, as the band a packet goes through and the delay of that band.
-/

namespace HotStuffTx

/-- The latencies of a row by replica, as `NetworkParameters` keeps them. -/
structure NetworkParameters where
  nodeLatencies : List (Nat × ℤ)

/-- The columns `lat_node0` to `lat_node3` of a row. A negative one is a `ConfigError`. -/
def NetworkParameters.ofRow (raw : Nat → Option ℤ) : Option NetworkParameters :=
  let latencies := (List.range 4).map fun i => (i, (raw i).getD 0)
  if latencies.all fun v => 0 ≤ v.2 then some ⟨latencies⟩ else none

def NetworkParameters.anyLatency (network : NetworkParameters) : Bool :=
  network.nodeLatencies.any fun v => 0 < v.2

/-- The pairs of the two nested loops: each index with the later ones. -/
def pairsOf : List Nat → List (Nat × Nat)
  | [] => []
  | a :: rest => rest.map (a, ·) ++ pairsOf rest

/-- `compute_pairwise_delays`. -/
def computePairwiseDelays (nodeLatencies : List (Nat × ℤ)) : List ((Nat × Nat) × ℤ) :=
  let idxs := (nodeLatencies.map Prod.fst).insertionSort (· ≤ ·)
  (pairsOf idxs).filterMap fun (a, b) =>
    let d := max ((nodeLatencies.lookup a).getD 0) ((nodeLatencies.lookup b).getD 0)
    if 0 < d then some ((a, b), d) else none

/-- One command on a device. The handle of a netem qdisc is the number printed as `{band}0`. -/
inductive TcCommand
  /-- `tc qdisc del dev {iface} root` -/
  | qdiscDel (iface : String)
  /-- `tc qdisc add dev {iface} root handle {handle}: prio bands {bands} priomap {priomap}` -/
  | qdiscPrio (iface : String) (handle bands : Nat) (priomap : List Nat)
  /-- `tc qdisc add dev {iface} parent {parent} handle {handle}: netem delay {delay}ms` -/
  | qdiscNetem (iface : String) (parent : Nat × Nat) (handle : Nat) (delay : ℤ)
  /-- `tc filter add dev {iface} parent {parent} protocol ip u32 match ip dst {dst}/32 flowid {flowid}` -/
  | filterDst (iface : String) (parent : Nat × Nat) (dst : String) (flowid : Nat × Nat)

/-- `d[key] = value` of a dictionary in insertion order. -/
def dictSet (d : List (Nat × ℤ)) (key : Nat) (value : ℤ) : List (Nat × ℤ) :=
  if key ∈ d.map Prod.fst then d.map fun item => if item.1 = key then (key, value) else item
  else d ++ [(key, value)]

section Setup

variable (myIdx : Nat) (peerIps : Nat → Option String) (iface : String)

/-- The peer a pair says something about, with its delay. -/
def touches (pair : (Nat × Nat) × ℤ) : Option (Nat × ℤ) :=
  if pair.1.1 = myIdx ∧ (peerIps pair.1.2).isSome then some (pair.1.2, pair.2)
  else if pair.1.2 = myIdx ∧ (peerIps pair.1.1).isSome then some (pair.1.1, pair.2)
  else none

/-- The first loop of `setup_commands`. -/
def myPeers (pairwiseDelays : List ((Nat × Nat) × ℤ)) : List (Nat × ℤ) :=
  pairwiseDelays.foldl (fun peers pair =>
    match touches myIdx peerIps pair with
    | some (peer, d) => dictSet peers peer d
    | none => peers) []

/-- The two commands of one band. The peer has an address: only such are collected. -/
def bandCommands (entry : (Nat × ℤ) × Nat) : List TcCommand :=
  [.qdiscNetem iface (1, entry.2) (10 * entry.2) entry.1.2,
    .filterDst iface (1, 0) ((peerIps entry.1.1).getD "") (1, entry.2)]

def setupCommands (pairwiseDelays : List ((Nat × Nat) × ℤ)) : List TcCommand :=
  let peers := myPeers myIdx peerIps pairwiseDelays
  if peers = [] then []
  else
    let nBands := peers.length + 1
    [.qdiscDel iface, .qdiscPrio iface 1 nBands (List.replicate 16 (nBands - 1))] ++
      ((peers.insertionSort fun p q => toLex p ≤ toLex q).zipIdx 1).flatMap
        (bandCommands peerIps iface) ++
      [.qdiscNetem iface (1, nBands) (10 * nBands) 0]

end Setup

/-- The addresses of all other replicas. -/
def peerIps (ips : List String) (i j : Nat) : Option String := if j ≠ i then ips[j]? else none

/-- What `_apply_netem` runs on the host of replica `i`, whose device to its peers is `iface`. -/
def applyNetem (ips : List String) (network : NetworkParameters) (i : Nat) (iface : String) :
    List TcCommand :=
  let clear := if ips.length < 2 then [] else [TcCommand.qdiscDel iface]
  if network.anyLatency then
    clear ++ setupCommands i (peerIps ips i) iface (computePairwiseDelays network.nodeLatencies)
  else clear

-- ---------------------------------------------------------------------------
-- Reading the commands
-- ---------------------------------------------------------------------------

structure PrioQdisc where
  handle : Nat
  bands : Nat
  priomap : List Nat

structure NetemQdisc where
  parent : Nat × Nat
  handle : Nat
  delay : ℤ

structure DstFilter where
  parent : Nat × Nat
  dst : String
  flowid : Nat × Nat

/-- What is set up on one device. -/
structure Rules where
  prio : Option PrioQdisc
  netem : List NetemQdisc
  filters : List DstFilter

/-- Nothing is set up. -/
def Rules.none : Rules := ⟨.none, [], []⟩

/-- Deleting the root qdisc deletes all that hangs on it. -/
def Rules.tc (iface : String) (r : Rules) : TcCommand → Rules
  | .qdiscDel dev => if dev = iface then Rules.none else r
  | .qdiscPrio dev handle bands priomap =>
    if dev = iface then { r with prio := some ⟨handle, bands, priomap⟩ } else r
  | .qdiscNetem dev parent handle delay =>
    if dev = iface then { r with netem := r.netem ++ [⟨parent, handle, delay⟩] } else r
  | .filterDst dev parent dst flowid =>
    if dev = iface then { r with filters := r.filters ++ [⟨parent, dst, flowid⟩] } else r

def rulesOf (iface : String) (cmds : List TcCommand) : Rules := cmds.foldl (Rules.tc iface) Rules.none

/-- The class a packet of some priority goes to: where a filter sends its
destination, else the band of its priority, counted from 1. -/
def Rules.classOf (r : Rules) (prio : PrioQdisc) (priority : Nat) (ip : String) : Option (Nat × Nat) :=
  match r.filters.find? (·.dst = ip) with
  | some filter => some filter.flowid
  | .none => prio.priomap[priority]?.map fun band => (prio.handle, band + 1)

/-- The delay of a packet: none at all where no qdisc is set up. -/
def Rules.delayTo (r : Rules) (priority : Nat) (ip : String) : Option ℤ :=
  match r.prio with
  | .none => some 0
  | some prio => do
    let cls ← r.classOf prio priority ip
    let qdisc ← r.netem.find? (·.parent = cls)
    return qdisc.delay

/-- Every band of the prio qdisc has one netem qdisc, each but the last one filter
that sends to it, and no handle is used twice. -/
structure Rules.Consistent (r : Rules) (prio : PrioQdisc) : Prop where
  priomap : prio.priomap = List.replicate 16 (prio.bands - 1)
  parents : r.netem.map NetemQdisc.parent = (List.range' 1 prio.bands).map (prio.handle, ·)
  handles : (prio.handle :: r.netem.map NetemQdisc.handle).Nodup
  flowids : r.filters.map DstFilter.flowid = (List.range' 1 (prio.bands - 1)).map (prio.handle, ·)
  attached : ∀ f ∈ r.filters, f.parent = (prio.handle, 0)
  destinations : (r.filters.map DstFilter.dst).Nodup

/-- What the row asks of the link between two replicas. -/
def askedDelay (raw : Nat → Option ℤ) (a b : Nat) : ℤ := max ((raw a).getD 0) ((raw b).getD 0)

/-- The rules of all hosts delay what the row asks, on both ends of each link, and
nothing else. -/
structure DelaysAsAsked (raw : Nat → Option ℤ) (ips : List String) (rules : Nat → Rules) : Prop where
  link : ∀ a b ipA ipB, a ≠ b → ips[a]? = some ipA → ips[b]? = some ipB → ∀ priority < 16,
    (rules a).delayTo priority ipB = some (askedDelay raw a b) ∧
      (rules b).delayTo priority ipA = some (askedDelay raw a b)
  others : ∀ a < ips.length, ∀ ip, (∀ b ≠ a, ips[b]? ≠ some ip) → ∀ priority < 16,
    (rules a).delayTo priority ip = some 0
  consistent : ∀ a < ips.length, rules a = Rules.none ∨
    ∃ prio, (rules a).prio = some prio ∧ (rules a).Consistent prio

-- ---------------------------------------------------------------------------
-- The table of pairs
-- ---------------------------------------------------------------------------

theorem mem_pairsOf {l : List Nat} (h : l.Pairwise (· < ·)) {a b : Nat} :
    (a, b) ∈ pairsOf l ↔ a < b ∧ a ∈ l ∧ b ∈ l := by
  induction h with
  | nil => simp [pairsOf]
  | @cons x rest hx _ ih =>
    simp only [pairsOf, List.mem_append, List.mem_map, Prod.mk.injEq, exists_eq_right_right, ih,
      List.mem_cons]
    constructor
    · rintro (⟨hb, rfl⟩ | ⟨hlt, ha, hb⟩)
      · exact ⟨hx b hb, .inl rfl, .inr hb⟩
      · exact ⟨hlt, .inr ha, .inr hb⟩
    · rintro ⟨hlt, rfl | ha, rfl | hb⟩
      · exact absurd hlt (lt_irrefl _)
      · exact .inl ⟨hb, rfl⟩
      · exact absurd (hx a ha) (lt_asymm hlt)
      · exact .inr ⟨hlt, ha, hb⟩

theorem lookup_map_pair {l : List Nat} {f : Nat → ℤ} {a : Nat} (ha : a ∈ l) :
    (l.map fun i => (i, f i)).lookup a = some (f a) := by
  induction l with
  | nil => cases ha
  | cons i l ih =>
    rw [List.map_cons, List.lookup_cons]
    by_cases hai : a = i
    · simp [hai]
    · have hne : (a == i) = false := by simpa using hai
      rw [hne]
      exact ih ((List.mem_cons.mp ha).resolve_left hai)

/-- The pairs below `k`, with the larger of their latencies where that is not 0. -/
theorem mem_computePairwiseDelays {k : Nat} {f : Nat → ℤ} {a b : Nat} {d : ℤ} :
    ((a, b), d) ∈ computePairwiseDelays ((List.range k).map fun i => (i, f i)) ↔
      (a < b ∧ b < k) ∧ d = max (f a) (f b) ∧ 0 < d := by
  have hidxs : (((List.range k).map fun i => (i, f i)).map Prod.fst).insertionSort (· ≤ ·) =
      List.range k := by
    rw [List.map_map, show Prod.fst ∘ (fun i => (i, f i)) = id from rfl, List.map_id]
    exact (List.pairwise_lt_range.imp Nat.le_of_lt).insertionSort_eq
  simp only [computePairwiseDelays, hidxs, List.mem_filterMap, Prod.exists,
    mem_pairsOf List.pairwise_lt_range, List.mem_range]
  constructor
  · rintro ⟨a', b', ⟨hlt, ha, hb⟩, h⟩
    rw [lookup_map_pair (List.mem_range.mpr ha), lookup_map_pair (List.mem_range.mpr hb)] at h
    simp only [Option.getD_some, Option.ite_none_right_eq_some, Option.some.injEq,
      Prod.mk.injEq] at h
    obtain ⟨hpos, ⟨rfl, rfl⟩, rfl⟩ := h
    exact ⟨⟨hlt, hb⟩, rfl, hpos⟩
  · rintro ⟨⟨hlt, hb⟩, rfl, hpos⟩
    refine ⟨a, b, ⟨hlt, hlt.trans hb, hb⟩, ?_⟩
    rw [lookup_map_pair (List.mem_range.mpr (hlt.trans hb)), lookup_map_pair (List.mem_range.mpr hb)]
    exact if_pos hpos

theorem NetworkParameters.ofRow_eq {raw : Nat → Option ℤ} {network : NetworkParameters}
    (h : ofRow raw = some network) :
    network.nodeLatencies = (List.range 4).map fun i => (i, (raw i).getD 0) := by
  unfold ofRow at h
  dsimp only at h
  split at h
  · cases h
    rfl
  · cases h

-- ---------------------------------------------------------------------------
-- The peers of one host
-- ---------------------------------------------------------------------------

section Peers

variable {myIdx : Nat} {peerIps : Nat → Option String} {f : Nat → ℤ}

/-- Setting a key to the value it has, or a new key. -/
theorem mem_dictSet {d : List (Nat × ℤ)} (hd : ∀ item ∈ d, item.2 = f item.1) {key : Nat}
    {item : Nat × ℤ} : item ∈ dictSet d key (f key) ↔ item ∈ d ∨ item = (key, f key) := by
  unfold dictSet
  split
  · rename_i hmem
    have hsame : (d.map fun item => if item.1 = key then (key, f key) else item) = d := by
      refine (List.map_congr_left fun item hitem => ?_).trans (List.map_id d)
      split
      · rename_i hkey
        rw [← hkey, ← hd item hitem]
        rfl
      · rfl
    rw [hsame]
    refine (or_iff_left_of_imp ?_).symm
    rintro rfl
    obtain ⟨item, hitem, hkey⟩ := List.mem_map.mp hmem
    rw [← hkey, ← hd item hitem]
    exact hitem
  · rw [List.mem_append, List.mem_singleton]

theorem nodup_dictSet {d : List (Nat × ℤ)} (hd : (d.map Prod.fst).Nodup) (key : Nat) (value : ℤ) :
    ((dictSet d key value).map Prod.fst).Nodup := by
  unfold dictSet
  split
  · have hkeys : ((d.map fun item => if item.1 = key then (key, value) else item).map Prod.fst) =
        d.map Prod.fst := by
      rw [List.map_map]
      refine List.map_congr_left fun item _ => ?_
      show (if item.1 = key then (key, value) else item).1 = item.1
      split
      · exact (‹item.1 = key›).symm
      · rfl
    rw [hkeys]
    exact hd
  · rename_i hnew
    rw [List.map_append]
    refine List.nodup_append.mpr ⟨hd, List.nodup_singleton _, fun a ha b hb hab => hnew ?_⟩
    obtain rfl : b = key := List.mem_singleton.mp hb
    exact hab ▸ ha

/-- The loop collects what the pairs say, where they agree on each peer. -/
theorem mem_myPeers {pairs : List ((Nat × Nat) × ℤ)}
    (hpairs : ∀ pair ∈ pairs, ∀ item, touches myIdx peerIps pair = some item → item.2 = f item.1)
    {item : Nat × ℤ} :
    item ∈ myPeers myIdx peerIps pairs ↔ ∃ pair ∈ pairs, touches myIdx peerIps pair = some item := by
  have hloop (peers : List (Nat × ℤ)) (hpeers : ∀ item ∈ peers, item.2 = f item.1) :
      item ∈ pairs.foldl (fun peers pair =>
        match touches myIdx peerIps pair with
        | some (peer, d) => dictSet peers peer d
        | none => peers) peers ↔
      item ∈ peers ∨ ∃ pair ∈ pairs, touches myIdx peerIps pair = some item := by
    induction pairs generalizing peers with
    | nil => simp
    | cons pair pairs ih =>
      obtain ⟨hpair, hrest⟩ := List.forall_mem_cons.mp hpairs
      rw [List.foldl_cons]
      cases ht : touches myIdx peerIps pair with
      | none =>
        rw [ih hrest _ hpeers]
        simp [ht]
      | some found =>
        obtain ⟨peer, d⟩ := found
        obtain rfl : d = f peer := hpair _ ht
        have hset : ∀ item ∈ dictSet peers peer (f peer), item.2 = f item.1 := fun item hitem => by
          rcases (mem_dictSet hpeers).mp hitem with h | rfl
          · exact hpeers item h
          · rfl
        rw [ih hrest _ hset, mem_dictSet hpeers]
        simp only [List.exists_mem_cons_iff, ht, Option.some.injEq, or_assoc, eq_comm]
  have hstart := hloop [] (by simp)
  rw [or_iff_right List.not_mem_nil] at hstart
  exact hstart

theorem nodup_myPeers (pairs : List ((Nat × Nat) × ℤ)) :
    ((myPeers myIdx peerIps pairs).map Prod.fst).Nodup := by
  refine List.foldlRecOn (motive := fun peers : List (Nat × ℤ) => (peers.map Prod.fst).Nodup)
    pairs _ List.nodup_nil fun peers hpeers pair _ => ?_
  split
  · exact nodup_dictSet hpeers _ _
  · exact hpeers

end Peers

theorem peerIps_eq_some {ips : List String} {i j : Nat} {ip : String} :
    peerIps ips i j = some ip ↔ j ≠ i ∧ ips[j]? = some ip := by
  rw [peerIps, Option.ite_none_right_eq_some]

/-- The peers a host shapes: those of the first four that the row delays. -/
theorem mem_myPeers_row {raw : Nat → Option ℤ} {ips : List String} {i peer : Nat} {d : ℤ} :
    (peer, d) ∈ myPeers i (peerIps ips i)
        (computePairwiseDelays ((List.range 4).map fun i => (i, (raw i).getD 0))) ↔
      (peer ≠ i ∧ peer < ips.length) ∧ (peer < 4 ∧ i < 4) ∧ d = askedDelay raw i peer ∧ 0 < d := by
  have hsome (j : Nat) : (peerIps ips i j).isSome ↔ j ≠ i ∧ j < ips.length := by
    simp [Option.isSome_iff_exists, peerIps_eq_some, List.getElem?_eq_some_iff]
  have htouch {pair : (Nat × Nat) × ℤ}
      (hpair : pair ∈ computePairwiseDelays ((List.range 4).map fun i => (i, (raw i).getD 0)))
      (item : Nat × ℤ) : touches i (peerIps ips i) pair = some item →
        (item.1 ≠ i ∧ item.1 < ips.length) ∧ (item.1 < 4 ∧ i < 4) ∧
          item.2 = askedDelay raw i item.1 ∧ 0 < item.2 := by
    obtain ⟨⟨a, b⟩, d⟩ := pair
    obtain ⟨⟨hlt, hb⟩, rfl, hpos⟩ := mem_computePairwiseDelays.mp hpair
    intro h
    unfold touches at h
    split at h
    · rename_i hif
      obtain ⟨rfl, hpeer⟩ := hif
      cases h
      exact ⟨(hsome b).mp hpeer, ⟨hb, hlt.trans hb⟩, rfl, hpos⟩
    · split at h
      · rename_i hif
        obtain ⟨rfl, hpeer⟩ := hif
        cases h
        exact ⟨(hsome a).mp hpeer, ⟨hlt.trans hb, hb⟩, max_comm _ _, hpos⟩
      · cases h
  rw [mem_myPeers fun pair hpair item hitem => (htouch hpair item hitem).2.2.1]
  constructor
  · rintro ⟨pair, hpair, hitem⟩
    exact htouch hpair _ hitem
  · rintro ⟨hpeer, ⟨hp4, hi4⟩, rfl, hpos⟩
    rcases lt_or_gt_of_ne hpeer.1 with hlt | hlt
    · refine ⟨((peer, i), askedDelay raw i peer), ?_, ?_⟩
      · exact mem_computePairwiseDelays.mpr ⟨⟨hlt, hi4⟩, max_comm _ _, hpos⟩
      · rw [touches, if_neg fun h => hpeer.1 h.1, if_pos ⟨rfl, (hsome peer).mpr hpeer⟩]
    · refine ⟨((i, peer), askedDelay raw i peer), ?_, ?_⟩
      · exact mem_computePairwiseDelays.mpr ⟨⟨hlt, hp4⟩, rfl, hpos⟩
      · rw [touches, if_pos ⟨rfl, (hsome peer).mpr hpeer⟩]

-- ---------------------------------------------------------------------------
-- What the commands set up
-- ---------------------------------------------------------------------------

section Bands

variable (peerIps : Nat → Option String) (iface : String)

def netemOf (entry : (Nat × ℤ) × Nat) : NetemQdisc := ⟨(1, entry.2), 10 * entry.2, entry.1.2⟩

def filterOf (entry : (Nat × ℤ) × Nat) : DstFilter :=
  ⟨(1, 0), (peerIps entry.1.1).getD "", (1, entry.2)⟩

theorem foldl_bandCommands (entries : List ((Nat × ℤ) × Nat)) (r : Rules) :
    (entries.flatMap (bandCommands peerIps iface)).foldl (Rules.tc iface) r =
      { r with
        netem := r.netem ++ entries.map netemOf
        filters := r.filters ++ entries.map (filterOf peerIps) } := by
  induction entries generalizing r with
  | nil => simp
  | cons entry entries ih =>
    rw [List.flatMap_cons, List.foldl_append, ih]
    simp [bandCommands, Rules.tc, netemOf, filterOf]

/-- The rules of the peers in their bands. -/
def bandRules (peers : List (Nat × ℤ)) : Rules where
  prio := some ⟨1, peers.length + 1, List.replicate 16 peers.length⟩
  netem := (peers.zipIdx 1).map netemOf ++
    [⟨(1, peers.length + 1), 10 * (peers.length + 1), 0⟩]
  filters := (peers.zipIdx 1).map (filterOf peerIps)

variable {myIdx : Nat} {pairs : List ((Nat × Nat) × ℤ)}

theorem foldl_setupCommands (hne : myPeers myIdx peerIps pairs ≠ []) (r : Rules) :
    (setupCommands myIdx peerIps iface pairs).foldl (Rules.tc iface) r =
      bandRules peerIps
        ((myPeers myIdx peerIps pairs).insertionSort fun p q => toLex p ≤ toLex q) := by
  rw [setupCommands, if_neg hne]
  simp only [List.foldl_append, foldl_bandCommands]
  simp [Rules.tc, Rules.none, bandRules, List.length_insertionSort]

theorem find?_key {α β : Type} [DecidableEq β] (key : α → β) {l : List α} (h : (l.map key).Nodup)
    {x : α} (hx : x ∈ l) : l.find? (key · = key x) = some x := by
  induction l with
  | nil => cases hx
  | cons y l ih =>
    rw [List.map_cons, List.nodup_cons] at h
    rcases List.mem_cons.mp hx with rfl | hx
    · simp
    · have hne : key y ≠ key x := fun heq => h.1 (heq ▸ List.mem_map_of_mem hx)
      rw [List.find?_cons_of_neg (by simpa using hne)]
      exact ih h.2 hx

variable {peerIps : Nat → Option String} {peers : List (Nat × ℤ)}

theorem map_snd_netem {β : Type} (g : Nat → β) :
    ((peers.zipIdx 1).map fun entry => g entry.2) ++ [g (peers.length + 1)] =
      (List.range' 1 (peers.length + 1)).map g := by
  have hbands : (peers.zipIdx 1).map (fun entry => g entry.2) = (List.range' 1 peers.length).map g := by
    rw [← List.zipIdx_map_snd 1 peers, List.map_map]
    rfl
  rw [hbands, List.range'_1_concat, List.map_append, Nat.add_comm 1]
  rfl

theorem parents_bandRules : (bandRules peerIps peers).netem.map NetemQdisc.parent =
    (List.range' 1 (peers.length + 1)).map (1, ·) := by
  rw [← map_snd_netem]
  simp [bandRules, netemOf]

theorem nodup_parents : ((bandRules peerIps peers).netem.map NetemQdisc.parent).Nodup := by
  rw [parents_bandRules]
  exact List.Nodup.map (fun a b h => (Prod.mk.inj h).2) List.nodup_range'

theorem bandRules_consistent (h : (peers.map fun peer => (peerIps peer.1).getD "").Nodup) :
    (bandRules peerIps peers).Consistent ⟨1, peers.length + 1, List.replicate 16 peers.length⟩ where
  priomap := rfl
  parents := parents_bandRules
  handles := by
    have hhandles : (bandRules peerIps peers).netem.map NetemQdisc.handle =
        (List.range' 1 (peers.length + 1)).map (10 * ·) := by
      rw [← map_snd_netem]
      simp [bandRules, netemOf]
    rw [hhandles]
    refine List.nodup_cons.mpr ⟨fun h => ?_, List.Nodup.map (fun a b h => ?_) List.nodup_range'⟩
    · obtain ⟨k, -, hk⟩ := List.mem_map.mp h
      dsimp only at hk
      omega
    · exact Nat.eq_of_mul_eq_mul_left (by decide) h
  flowids := by
    rw [Nat.add_sub_cancel, ← List.zipIdx_map_snd 1 peers, List.map_map]
    simp [bandRules, filterOf]
  attached := by
    intro f hf
    obtain ⟨entry, -, rfl⟩ := List.mem_map.mp hf
    rfl
  destinations := by
    have hdst : (bandRules peerIps peers).filters.map DstFilter.dst =
        peers.map fun peer => (peerIps peer.1).getD "" := by
      conv_rhs => rw [← List.zipIdx_map_fst 1 peers]
      rw [bandRules, List.map_map, List.map_map]
      rfl
    rw [hdst]
    exact h

/-- Packets to a peer go through its band. -/
theorem delayTo_peer (h : (peers.map fun peer => (peerIps peer.1).getD "").Nodup) {peer : Nat}
    {d : ℤ} (hpeer : (peer, d) ∈ peers) {ip : String} (hip : peerIps peer = some ip)
    (priority : Nat) : (bandRules peerIps peers).delayTo priority ip = some d := by
  obtain ⟨band, hband⟩ : ∃ band, ((peer, d), band) ∈ peers.zipIdx 1 := by
    rw [← List.zipIdx_map_fst 1 peers] at hpeer
    obtain ⟨⟨x, band⟩, hx, rfl⟩ := List.mem_map.mp hpeer
    exact ⟨band, hx⟩
  have hfilter := find?_key DstFilter.dst (bandRules_consistent h).destinations
    (List.mem_map_of_mem hband)
  have hmem : netemOf ((peer, d), band) ∈ (bandRules peerIps peers).netem :=
    List.mem_append_left _ (List.mem_map_of_mem hband)
  have hqdisc := find?_key NetemQdisc.parent nodup_parents hmem
  have hdst : (filterOf peerIps ((peer, d), band)).dst = ip := by rw [filterOf, hip, Option.getD_some]
  rw [hdst] at hfilter
  show ((bandRules peerIps peers).classOf _ priority ip >>= _) = _
  rw [Rules.classOf, hfilter]
  exact congrArg (· >>= fun qdisc : NetemQdisc => some qdisc.delay) hqdisc

/-- All other packets go through the last band. -/
theorem delayTo_other {ip : String} (hip : ∀ peer ∈ peers, (peerIps peer.1).getD "" ≠ ip)
    {priority : Nat} (hp : priority < 16) :
    (bandRules peerIps peers).delayTo priority ip = some 0 := by
  have hfilter : (bandRules peerIps peers).filters.find? (·.dst = ip) = none := by
    refine List.find?_eq_none.mpr fun f hf => ?_
    obtain ⟨⟨peer, band⟩, hmem, rfl⟩ := List.mem_map.mp hf
    have hpeer : peer ∈ peers := by
      rw [← List.zipIdx_map_fst 1 peers]
      exact List.mem_map_of_mem (f := Prod.fst) hmem
    exact fun hdst => hip peer hpeer (of_decide_eq_true hdst)
  have hmem : (⟨(1, peers.length + 1), 10 * (peers.length + 1), 0⟩ : NetemQdisc) ∈
      (bandRules peerIps peers).netem := List.mem_append_right _ (List.mem_singleton_self _)
  have hqdisc := find?_key NetemQdisc.parent nodup_parents hmem
  have hprio : (List.replicate 16 peers.length)[priority]? = some peers.length := by
    rw [List.getElem?_replicate, if_pos hp]
  show ((bandRules peerIps peers).classOf _ priority ip >>= _) = _
  rw [Rules.classOf, hfilter, hprio]
  exact congrArg (· >>= fun qdisc : NetemQdisc => some qdisc.delay) hqdisc

end Bands

-- ---------------------------------------------------------------------------
-- The hosts of a row
-- ---------------------------------------------------------------------------

section Row

variable {raw : Nat → Option ℤ} {network : NetworkParameters} {ips : List String}

/-- The peers a host shapes, in the order of their bands. -/
def rowPeers (raw : Nat → Option ℤ) (ips : List String) (i : Nat) : List (Nat × ℤ) :=
  (myPeers i (peerIps ips i)
    (computePairwiseDelays ((List.range 4).map fun i => (i, (raw i).getD 0)))).insertionSort
      fun p q => toLex p ≤ toLex q

theorem mem_rowPeers {i peer : Nat} {d : ℤ} : (peer, d) ∈ rowPeers raw ips i ↔
    (peer ≠ i ∧ peer < ips.length) ∧ (peer < 4 ∧ i < 4) ∧ d = askedDelay raw i peer ∧ 0 < d := by
  rw [rowPeers, List.mem_insertionSort, mem_myPeers_row]

/-- The addresses of the peers are distinct, as all addresses are. -/
theorem nodup_rowPeers (hips : ips.Nodup) (i : Nat) :
    ((rowPeers raw ips i).map fun peer => (peerIps ips i peer.1).getD "").Nodup := by
  have hkeys : ((rowPeers raw ips i).map Prod.fst).Nodup :=
    ((List.perm_insertionSort _ _).map _).nodup_iff.mpr (nodup_myPeers _)
  have hmap : ((rowPeers raw ips i).map fun peer => (peerIps ips i peer.1).getD "") =
      ((rowPeers raw ips i).map Prod.fst).map fun peer => (peerIps ips i peer).getD "" := by
    rw [List.map_map]
    rfl
  rw [hmap]
  refine List.Nodup.map_on (fun p hp q hq heq => ?_) hkeys
  have hsome {j : Nat} (hj : j ∈ (rowPeers raw ips i).map Prod.fst) :
      ∃ h : j < ips.length, (peerIps ips i j).getD "" = ips[j] := by
    obtain ⟨⟨peer, d⟩, hmem, rfl⟩ := List.mem_map.mp hj
    obtain ⟨⟨hne, hlt⟩, -⟩ := mem_rowPeers.mp hmem
    exact ⟨hlt, by rw [peerIps, if_pos hne, List.getElem?_eq_getElem hlt, Option.getD_some]⟩
  obtain ⟨hpl, hp⟩ := hsome hp
  obtain ⟨hql, hq⟩ := hsome hq
  rw [hp, hq] at heq
  exact (List.Nodup.getElem_inj_iff hips).mp heq

/-- A host is shaped where a link of it is delayed. -/
theorem rulesOf_applyNetem (hrow : NetworkParameters.ofRow raw = some network)
    (i : Nat) (iface : String) :
    rulesOf iface (applyNetem ips network i iface) =
      if rowPeers raw ips i = [] then Rules.none else bandRules (peerIps ips i) (rowPeers raw ips i) := by
  have hlat := NetworkParameters.ofRow_eq hrow
  have hempty : rowPeers raw ips i = [] ↔ myPeers i (peerIps ips i)
      (computePairwiseDelays network.nodeLatencies) = [] := by
    rw [hlat, ← List.length_eq_zero_iff, ← List.length_eq_zero_iff, rowPeers,
      List.length_insertionSort]
  have hclear : (if ips.length < 2 then [] else [TcCommand.qdiscDel iface]).foldl (Rules.tc iface)
      Rules.none = Rules.none := by
    split
    · rfl
    · exact if_pos rfl
  rw [rulesOf, applyNetem]
  cases hany : network.anyLatency with
  | false =>
    have hnone : rowPeers raw ips i = [] := by
      refine List.eq_nil_iff_forall_not_mem.mpr fun ⟨peer, d⟩ hpeer => ?_
      obtain ⟨-, ⟨hp, hi⟩, rfl, hpos⟩ := mem_rowPeers.mp hpeer
      have hzero {j : Nat} (hj : j < 4) : (raw j).getD 0 ≤ 0 := by
        have hall := List.any_eq_false.mp hany (j, (raw j).getD 0)
          (by rw [hlat]; exact List.mem_map_of_mem (f := fun i => (i, (raw i).getD 0)) (List.mem_range.mpr hj))
        simpa using hall
      exact absurd hpos (not_lt.mpr (max_le (hzero hi) (hzero hp)))
    rw [if_pos hnone, if_neg Bool.false_ne_true]
    exact hclear
  | true =>
    rw [if_pos rfl, List.foldl_append, hclear]
    by_cases hnone : rowPeers raw ips i = []
    · rw [if_pos hnone, setupCommands, if_pos (hempty.mp hnone)]
      rfl
    · rw [if_neg hnone, foldl_setupCommands _ _ (fun h => hnone (hempty.mpr h)), hlat]
      rfl

/-- The rules of the hosts of a row. -/
def hostRules (ips : List String) (network : NetworkParameters) (iface : Nat → String) (i : Nat) :
    Rules :=
  rulesOf (iface i) (applyNetem ips network i (iface i))

variable {iface : Nat → String}

theorem hostRules_peer (hrow : NetworkParameters.ofRow raw = some network) (hips : ips.Nodup)
    {i peer : Nat} {d : ℤ} (hpeer : (peer, d) ∈ rowPeers raw ips i) {ip : String}
    (hip : ips[peer]? = some ip) (priority : Nat) :
    (hostRules ips network iface i).delayTo priority ip = some d := by
  rw [hostRules, rulesOf_applyNetem hrow, if_neg (List.ne_nil_of_mem hpeer)]
  have hne := (mem_rowPeers.mp hpeer).1.1
  exact delayTo_peer (nodup_rowPeers hips i) hpeer (peerIps_eq_some.mpr ⟨hne, hip⟩) priority

theorem hostRules_other (hrow : NetworkParameters.ofRow raw = some network) {i : Nat} {ip : String}
    (hip : ∀ peer d, (peer, d) ∈ rowPeers raw ips i → ips[peer]? ≠ some ip) {priority : Nat}
    (hp : priority < 16) : (hostRules ips network iface i).delayTo priority ip = some 0 := by
  rw [hostRules, rulesOf_applyNetem hrow]
  split
  · rfl
  · refine delayTo_other (fun ⟨peer, d⟩ hpeer heq => hip peer d hpeer ?_) hp
    obtain ⟨⟨hne, hlt⟩, -⟩ := mem_rowPeers.mp hpeer
    rw [peerIps, if_pos hne, List.getElem?_eq_getElem hlt, Option.getD_some] at heq
    rw [List.getElem?_eq_getElem hlt, heq]

/-- What a host does to the packets to another replica. -/
theorem hostRules_link (hrow : NetworkParameters.ofRow raw = some network) (hips : ips.Nodup)
    {a b : Nat} (hne : b ≠ a) {ip : String} (hip : ips[b]? = some ip) {priority : Nat}
    (hp : priority < 16) : (hostRules ips network iface a).delayTo priority ip =
      some (if b < 4 ∧ a < 4 then max (askedDelay raw a b) 0 else 0) := by
  have hb : b < ips.length := (List.getElem?_eq_some_iff.mp hip).1
  by_cases hpeer : (b < 4 ∧ a < 4) ∧ 0 < askedDelay raw a b
  · rw [if_pos hpeer.1, max_eq_left hpeer.2.le]
    exact hostRules_peer hrow hips (mem_rowPeers.mpr ⟨⟨hne, hb⟩, hpeer.1, rfl, hpeer.2⟩) hip priority
  · have hzero : (if b < 4 ∧ a < 4 then max (askedDelay raw a b) 0 else 0) = 0 := by
      split
      · exact max_eq_right (not_lt.mp fun h => hpeer ⟨‹_›, h⟩)
      · rfl
    rw [hzero]
    refine hostRules_other hrow (fun peer d hmem hpeerIp => hpeer ?_) hp
    obtain ⟨-, hfour, rfl, hpos⟩ := mem_rowPeers.mp hmem
    obtain rfl : peer = b := (List.getElem?_inj (mem_rowPeers.mp hmem).1.2 hips).mp
      (hpeerIp.trans hip.symm)
    exact ⟨hfour, hpos⟩

end Row

theorem askedDelay_comm (raw : Nat → Option ℤ) (a b : Nat) : askedDelay raw a b = askedDelay raw b a :=
  max_comm _ _

/-- The links of a row are delayed as it asks exactly where it has four replicas
or no latency: `NetworkParameters` knows the first four replicas only. -/
theorem delays_as_asked (raw : Nat → Option ℤ) (network : NetworkParameters) (ips : List String)
    (iface : Nat → String) (hrow : NetworkParameters.ofRow raw = some network)
    (hlat : ∀ i, 0 ≤ (raw i).getD 0) (hips : ips.Nodup) (h4 : 4 ≤ ips.length) :
    DelaysAsAsked raw ips (hostRules ips network iface) ↔
      ips.length = 4 ∨ ∀ i < ips.length, (raw i).getD 0 = 0 := by
  have hasked (a b : Nat) : 0 ≤ askedDelay raw a b := (hlat a).trans (le_max_left _ _)
  constructor
  · intro h
    by_contra hno
    obtain ⟨hlen, i, hi, hlati⟩ : ips.length ≠ 4 ∧ ∃ i < ips.length, (raw i).getD 0 ≠ 0 := by
      simpa only [not_or, not_forall, exists_prop] using hno
    -- a link of `i` that leaves the first four
    obtain ⟨j, hj, hne, hout⟩ : ∃ j < ips.length, j ≠ i ∧ ¬ (j < 4 ∧ i < 4) := by
      by_cases h4i : i < 4
      · exact ⟨4, by omega, by omega, by omega⟩
      · exact ⟨0, by omega, by omega, by omega⟩
    have hip := List.getElem?_eq_getElem hj
    have hlink := (h.link i j _ _ hne.symm (List.getElem?_eq_getElem hi) hip 0 (by decide)).1
    rw [hostRules_link hrow hips hne hip (by decide), if_neg hout] at hlink
    have hpos : 0 < askedDelay raw i j :=
      (lt_of_le_of_ne (hlat i) hlati.symm).trans_le (le_max_left _ _)
    exact absurd (Option.some.inj hlink).symm hpos.ne'
  · intro h
    have hlink {a b : Nat} (ha : a < ips.length) {ip : String} (hne : b ≠ a) (hip : ips[b]? = some ip)
        {priority : Nat} (hp : priority < 16) :
        (hostRules ips network iface a).delayTo priority ip = some (askedDelay raw a b) := by
      have hb : b < ips.length := (List.getElem?_eq_some_iff.mp hip).1
      rw [hostRules_link hrow hips hne hip hp]
      rcases h with hlen | hzero
      · rw [if_pos ⟨by omega, by omega⟩, max_eq_left (hasked a b)]
      · have hasked0 : askedDelay raw a b = 0 := by rw [askedDelay, hzero a ha, hzero b hb, max_self]
        rw [hasked0, max_self, ite_self]
    refine ⟨fun a b ipA ipB hne ha hb priority hp => ?_, fun a ha ip hip priority hp => ?_, fun a ha => ?_⟩
    · have hla := (List.getElem?_eq_some_iff.mp ha).1
      have hlb := (List.getElem?_eq_some_iff.mp hb).1
      exact ⟨hlink hla hne.symm hb hp, askedDelay_comm raw a b ▸ hlink hlb hne ha hp⟩
    · exact hostRules_other hrow (fun peer d hpeer => hip peer (mem_rowPeers.mp hpeer).1.1) hp
    · rw [hostRules, rulesOf_applyNetem hrow]
      split
      · exact .inl rfl
      · exact .inr ⟨_, rfl, bandRules_consistent (nodup_rowPeers hips a)⟩

/-- Replica 0 is 50 ms away. -/
def farRow (i : Nat) : Option ℤ := if i = 0 then some 50 else none

def farNetwork : NetworkParameters := ⟨[(0, 50), (1, 0), (2, 0), (3, 0)]⟩

theorem farRow_nonneg (i : Nat) : 0 ≤ (farRow i).getD 0 := by
  unfold farRow
  split <;> decide

theorem delays_as_asked_four :
    DelaysAsAsked farRow ["10.0.0.1", "10.0.0.2", "10.0.0.3", "10.0.0.4"]
      (hostRules ["10.0.0.1", "10.0.0.2", "10.0.0.3", "10.0.0.4"] farNetwork fun _ => "eth0") :=
  (delays_as_asked farRow farNetwork _ (fun _ => "eth0") rfl farRow_nonneg (by decide)
    (by decide)).mpr (.inl rfl)

/-- With a fifth replica the link from replica 0 to it is left as it is. -/
theorem delays_as_asked_five :
    NetworkParameters.ofRow farRow = some farNetwork ∧
      ¬ DelaysAsAsked farRow ["10.0.0.1", "10.0.0.2", "10.0.0.3", "10.0.0.4", "10.0.0.5"]
        (hostRules ["10.0.0.1", "10.0.0.2", "10.0.0.3", "10.0.0.4", "10.0.0.5"] farNetwork
          fun _ => "eth0") := by
  refine ⟨rfl, fun h => ?_⟩
  have hlink := (h.link 0 4 "10.0.0.1" "10.0.0.5" (by decide) rfl rfl 0 (by decide)).1
  exact absurd hlink (by decide +kernel)

end HotStuffTx
