import Rhea.Lib.Words
import Rhea.Lib.Runs

/-!
# The byte-flow regulator

`rhea::byteflow_regulator::Server` keeps an input and an output rate for every job and asks the job
manager for nodes when the two differ too much.  The operations are translated here as atomic calls;
`CalculateRate` takes the order in which it finds the keys of `in_rate_map` as an argument, and a
call is possible with every order of these keys.

A `JobId` has 32 bits and the keys of the maps have 16.  The values of the maps are of type
`uint_fast32_t`; only values of type `uint32_t` are ever stored.  The arithmetic of `AlterNodes` is
done on integers, with the conversions that the C++ types prescribe; where C++ leaves an operation
on `int` undefined, this is the result modulo `2 ^ 32` that the machine gives.
-/

namespace Rhea.ByteflowRegulator

open Words

/-- `JobId` -/
abbrev JobId := UInt32

/-- `std::unordered_map<uint16_t, uint_fast32_t>` -/
abbrev RateMap := Finmap fun _ : UInt16 => UInt32

/-- The settings that the regulator uses. -/
structure Configuration where
  /-- `BYTEFLOW_UPDATE_VARIATION` -/
  updateVariation : UInt16 := 100
  /-- `BYTEFLOW_UPDATE_STEP` -/
  updateStep : UInt64 := 5

/-- The maps of the server. -/
structure Server where
  inRateMap : RateMap
  outRateMap : RateMap

/-- The server before the first call. -/
def Server.init : Server := ⟨∅, ∅⟩

/-- A request to the job manager; the other two fields of `ResourceAllocation` are zero. -/
structure ResourceAllocation where
  jobId : UInt16
  nodeVar : ℤ
  deriving DecidableEq, Repr

/-- `map[key] = value` -/
def RateMap.assign (map : RateMap) (key : UInt16) (value : UInt32) : RateMap :=
  map.insert key value

/-- `map[key]` as a value: a missing entry is inserted with the value zero. -/
def RateMap.subscript (map : RateMap) (key : UInt16) : UInt32 × RateMap :=
  match map.lookup key with
  | some value => (value, map)
  | none => (0, map.insert key 0)

/-- The rate that the map has for a key; an absent entry counts as zero. -/
def RateMap.rate (map : RateMap) (key : UInt16) : UInt32 := (map.lookup key).getD 0

/-! ## Arithmetic -/

/-- `Alter_Type` -/
inductive AlterType
  | grow
  | shrink
  deriving DecidableEq

/-- The underlying `int8_t` of an `Alter_Type`. -/
def AlterType.value : AlterType → ℤ
  | grow => 1
  | shrink => -1

/-- `(int)(out_rate - in_rate)` -/
def rateDifference (outRate inRate : UInt32) : ℤ :=
  toSigned 32 (toUnsigned 64 (outRate.toNat - inRate.toNat))

/-- `abs` on `int` -/
def absInt (z : ℤ) : ℤ := toSigned 32 |z|

variable (conf : Configuration)

/-- The `node_var` that `AlterNodes` computes. -/
def nodeVar (outRate inRate : UInt32) : ℤ :=
  let multiplier := (if inRate < outRate then AlterType.shrink else AlterType.grow).value
  let difference := toSigned 32
    (absInt (rateDifference outRate inRate) - (conf.updateVariation.toNat / 2 : ℕ))
  toSigned 16 (toUnsigned 64 (toSigned 32 (difference * multiplier)) / conf.updateStep.toNat)

/-- The request that `AlterNodes` sends. -/
def alterNodes (jobId : UInt16) (outRate inRate : UInt32) : ResourceAllocation :=
  ⟨jobId, nodeVar conf outRate inRate⟩

/-! ## The calls -/

/-- `Server::RegisterJob` -/
def Server.registerJob (s : Server) (jobId : JobId) : Server where
  inRateMap := s.inRateMap.assign jobId.toUInt16 0
  outRateMap := s.outRateMap.assign jobId.toUInt16 0

/-- `Server::FinalizeJob` -/
def Server.finalizeJob (s : Server) (jobId : JobId) : Server where
  inRateMap := s.inRateMap.assign jobId.toUInt16 0
  outRateMap := s.outRateMap.assign jobId.toUInt16 0

/-- `Server::SetInRate` -/
def Server.setInRate (s : Server) (jobId : JobId) (inRate : UInt32) : Server :=
  { s with inRateMap := s.inRateMap.assign jobId.toUInt16 inRate }

/-- `Server::SetOutRate` -/
def Server.setOutRate (s : Server) (jobId : JobId) (outRate : UInt32) : Server :=
  { s with outRateMap := s.outRateMap.assign jobId.toUInt16 outRate }

/-- The tests of `CalculateRate` before it calls `AlterNodes`. -/
def imbalanced (outRate inRate : UInt32) : Bool :=
  !(inRate = 0 || outRate = 0) &&
    (conf.updateVariation.toNat : ℤ) ≤ absInt (rateDifference outRate inRate)

/-- The locked section of the loop of `CalculateRate`: both rates of a job. -/
def Server.readRates (s : Server) (job : JobId) : UInt32 × UInt32 × Server :=
  let (inRate, inRateMap) := s.inRateMap.subscript job.toUInt16
  let (outRate, outRateMap) := s.outRateMap.subscript job.toUInt16
  (outRate, inRate, ⟨inRateMap, outRateMap⟩)

/-- The loop of `CalculateRate` over the jobs it has found, and the requests it sends. -/
def Server.calculateJobs (s : Server) : List JobId → Server × List ResourceAllocation
  | [] => (s, [])
  | job :: jobs =>
    let (outRate, inRate, s) := s.readRates job
    let (s, requests) := s.calculateJobs jobs
    (s, if imbalanced conf outRate inRate then
      alterNodes conf job.toUInt16 outRate inRate :: requests else requests)

/-- `Server::CalculateRate`, which finds the keys of `in_rate_map` in the order `order`. -/
def Server.calculateRate (s : Server) (order : List UInt16) : Server × List ResourceAllocation :=
  s.calculateJobs conf (order.map UInt16.toUInt32)

/-- A call of the server. -/
inductive Call
  | registerJob (jobId : JobId)
  | finalizeJob (jobId : JobId)
  | setInRate (jobId : JobId) (inRate : UInt32)
  | setOutRate (jobId : JobId) (outRate : UInt32)
  | calculateRate (order : List UInt16)
  deriving DecidableEq, Repr

/-- `order` is an order in which the keys of the map can be found. -/
def RateMap.Iterates (map : RateMap) (order : List UInt16) : Prop :=
  (order : Multiset UInt16) = map.keys.val

instance (map : RateMap) (order : List UInt16) : Decidable (map.Iterates order) :=
  inferInstanceAs (Decidable ((order : Multiset UInt16) = map.keys.val))

/-- The server after a call; `none` for a pass in an order that its map does not have. -/
def Server.step (s : Server) : Call → Option Server
  | .registerJob jobId => some (s.registerJob jobId)
  | .finalizeJob jobId => some (s.finalizeJob jobId)
  | .setInRate jobId inRate => some (s.setInRate jobId inRate)
  | .setOutRate jobId outRate => some (s.setOutRate jobId outRate)
  | .calculateRate order =>
    if s.inRateMap.Iterates order then some (s.calculateRate conf order).1 else none

/-- The requests that a call sends to the job manager. -/
def Server.requests (s : Server) : Call → List ResourceAllocation
  | .calculateRate order => (s.calculateRate conf order).2
  | _ => []

/-- The server after a sequence of calls. -/
abbrev run (calls : List Call) : Option Server := Transition.exec (Server.step conf) .init calls

/-- All requests of a sequence of calls. -/
abbrev sent (calls : List Call) : List ResourceAllocation :=
  Transition.trace (Server.step conf) (Server.requests conf) .init calls

variable {conf} {s s' : Server} {map : RateMap} {key k : UInt16} {value : UInt32}
  {order : List UInt16}

/-! ## The maps -/

@[simp] theorem rate_assign_self (map : RateMap) (key : UInt16) (value : UInt32) :
    (map.assign key value).rate key = value := by
  simp [RateMap.rate, RateMap.assign]

theorem rate_assign_of_ne (map : RateMap) (value : UInt32) (h : k ≠ key) :
    (map.assign key value).rate k = map.rate k := by
  simp [RateMap.rate, RateMap.assign, Finmap.lookup_insert_of_ne _ h]

theorem rate_assign (map : RateMap) (key k : UInt16) (value : UInt32) :
    (map.assign key value).rate k = if k = key then value else map.rate k := by
  split_ifs with h
  · rw [h, rate_assign_self]
  · exact rate_assign_of_ne map value h

@[simp] theorem subscript_fst (map : RateMap) (key : UInt16) :
    (map.subscript key).1 = map.rate key := by
  unfold RateMap.subscript RateMap.rate
  cases map.lookup key <;> rfl

@[simp] theorem rate_subscript (map : RateMap) (key k : UInt16) :
    (map.subscript key).2.rate k = map.rate k := by
  unfold RateMap.subscript
  cases h : map.lookup key with
  | some value => rfl
  | none =>
    rcases eq_or_ne k key with rfl | hk
    · simp [RateMap.rate, h]
    · simp [RateMap.rate, Finmap.lookup_insert_of_ne _ hk]

theorem subscript_of_mem (h : key ∈ map) : (map.subscript key).2 = map := by
  obtain ⟨value, hv⟩ := Finmap.mem_iff.1 h
  simp [RateMap.subscript, hv]

theorem mem_of_rate_ne_zero (h : map.rate k ≠ 0) : k ∈ map := by
  by_contra hk
  simp [RateMap.rate, Finmap.lookup_eq_none.2 hk] at h

theorem RateMap.Iterates.mem_iff (h : map.Iterates order) : k ∈ order ↔ k ∈ map := by
  rw [← Finmap.mem_keys, ← Finset.mem_val, ← h, Multiset.mem_coe]

theorem RateMap.Iterates.nodup (h : map.Iterates order) : order.Nodup := by
  rw [← Multiset.coe_nodup, h]
  exact map.keys.nodup

/-! ## What a pass does -/

/-- The request a pass sends for a job, by its rates. -/
def request (conf : Configuration) (s : Server) (k : UInt16) : Option ResourceAllocation :=
  if imbalanced conf (s.outRateMap.rate k) (s.inRateMap.rate k) then
    some (alterNodes conf k (s.outRateMap.rate k) (s.inRateMap.rate k))
  else none

/-- The server after the rates of a job have been read. -/
def Server.visited (s : Server) (k : UInt16) : Server where
  inRateMap := (s.inRateMap.subscript k).2
  outRateMap := (s.outRateMap.subscript k).2

theorem readRates_eq (s : Server) (k : UInt16) :
    s.readRates k.toUInt32 = (s.outRateMap.rate k, s.inRateMap.rate k, s.visited k) := by
  simp only [Server.readRates, UInt16.toUInt16_toUInt32, subscript_fst, Server.visited]

theorem request_visited (conf : Configuration) (s : Server) (key : UInt16) :
    request conf (s.visited key) = request conf s := by
  funext k
  simp only [request, Server.visited, rate_subscript]

theorem calculateRate_cons (conf : Configuration) (s : Server) (k : UInt16) (order : List UInt16) :
    s.calculateRate conf (k :: order) = (((s.visited k).calculateRate conf order).1,
      (request conf s k).toList ++ ((s.visited k).calculateRate conf order).2) := by
  simp only [Server.calculateRate, List.map_cons, Server.calculateJobs, readRates_eq, request,
    UInt16.toUInt16_toUInt32]
  split_ifs <;> rfl

/-- A pass sends for each job what the rates before the pass ask for. -/
theorem calculateRate_snd (conf : Configuration) (s : Server) (order : List UInt16) :
    (s.calculateRate conf order).2 = order.filterMap (request conf s) := by
  induction order generalizing s with
  | nil => rfl
  | cons k order ih =>
    rw [calculateRate_cons, List.filterMap_cons, ih, request_visited]
    cases request conf s k <;> rfl

theorem rate_calculateRate (conf : Configuration) (s : Server) (order : List UInt16) (k : UInt16) :
    (s.calculateRate conf order).1.inRateMap.rate k = s.inRateMap.rate k ∧
      (s.calculateRate conf order).1.outRateMap.rate k = s.outRateMap.rate k := by
  induction order generalizing s with
  | nil => exact ⟨rfl, rfl⟩
  | cons key order ih =>
    rw [calculateRate_cons]
    obtain ⟨inRate, outRate⟩ := ih (s.visited key)
    exact ⟨inRate.trans (rate_subscript ..), outRate.trans (rate_subscript ..)⟩

/-- A pass leaves the input map as it is. -/
theorem calculateRate_inRateMap (conf : Configuration) (s : Server)
    (h : ∀ k ∈ order, k ∈ s.inRateMap) : (s.calculateRate conf order).1.inRateMap = s.inRateMap := by
  induction order generalizing s with
  | nil => rfl
  | cons key order ih =>
    have same : (s.visited key).inRateMap = s.inRateMap :=
      subscript_of_mem (h key (List.mem_cons_self ..))
    rw [calculateRate_cons]
    exact (ih _ fun k hk => same.symm ▸ h k (List.mem_cons_of_mem _ hk)).trans same

theorem jobId_of_request {r : ResourceAllocation} (h : request conf s k = some r) : r.jobId = k := by
  unfold request at h
  split_ifs at h
  exact Option.some.inj h ▸ rfl

theorem request_eq_none (h : k ∉ s.inRateMap) : request conf s k = none := by
  have zero : s.inRateMap.rate k = 0 := by
    by_contra hne
    exact h (mem_of_rate_ne_zero hne)
  simp [request, imbalanced, zero]

theorem filter_request (s : Server) (key k : UInt16) :
    (request conf s key).toList.filter (·.jobId = k) =
      if key = k then (request conf s k).toList else [] := by
  cases h : request conf s key with
  | none =>
    split_ifs with hk
    · simp [← hk, h]
    · rfl
  | some r =>
    have job := jobId_of_request h
    split_ifs with hk
    · simp [← hk, h, job]
    · simp [job, hk]

/-- The requests of a pass for one job. -/
theorem requests_filter (conf : Configuration) (horder : s.inRateMap.Iterates order) (k : UInt16) :
    (s.calculateRate conf order).2.filter (·.jobId = k) = (request conf s k).toList := by
  have once : ∀ order : List UInt16, order.Nodup →
      (order.filterMap (request conf s)).filter (·.jobId = k) =
        if k ∈ order then (request conf s k).toList else [] := by
    intro order nodup
    induction order with
    | nil => simp
    | cons key order ih =>
      obtain ⟨fresh, nodup⟩ := List.nodup_cons.1 nodup
      have split : (key :: order).filterMap (request conf s) =
          (request conf s key).toList ++ order.filterMap (request conf s) := by
        rw [List.filterMap_cons]
        cases request conf s key <;> rfl
      rw [split, List.filter_append, filter_request, ih nodup]
      rcases eq_or_ne key k with rfl | hk
      · simp [fresh]
      · simp [hk, hk.symm]
  rw [calculateRate_snd, once order horder.nodup]
  split_ifs with hk
  · rfl
  · rw [request_eq_none fun h => hk (horder.mem_iff.2 h)]
    rfl

end Rhea.ByteflowRegulator
