import Rhea.ReadJob

/-!
# The batch of a collector

`GetWriteParsel` and `GetReadParsel` compute an amount from the size of the queue and pop while it is
positive, but the loop never lowers it.  Both are instances of `drain`, and `boundedBatch_iff` says
when the batch keeps to the amount all the same.
-/

namespace Rhea

variable {α : Type*}

/-! ## Popping while others push -/

/-- Pop while `go` holds and there is something to pop; `pushes k` arrives before the `k`-th pop.
The result is what has been popped and what is left, `none` after `fuel` pops without an end. -/
def drain (go : Prop) [Decidable go] (pushes : ℕ → List α) :
    ℕ → ℕ → List α → List α → Option (List α × List α)
  | 0, _, _, _ => none
  | fuel + 1, k, queue, batch =>
    if go then
      match queue ++ pushes k with
      | [] => some (batch, [])
      | head :: rest => drain go pushes fuel (k + 1) rest (batch ++ [head])
    else some (batch, queue ++ pushes k)

variable {go : Prop} [Decidable go] {pushes : ℕ → List α} {fuel k : ℕ}
  {queue batch out rest : List α}

theorem length_le_of_drain (hgo : go)
    (h : drain go pushes fuel k queue batch = some (out, rest)) :
    batch.length + queue.length ≤ out.length := by
  induction fuel generalizing k queue batch with
  | zero => cases h
  | succ fuel ih =>
    rw [drain, if_pos hgo] at h
    split at h
    · rename_i empty
      obtain ⟨rfl, rfl⟩ := Prod.mk.inj (Option.some.inj h)
      simp [(List.append_eq_nil_iff.1 empty).1]
    · rename_i head tail split
      have := ih h
      have size := congrArg List.length split
      simp only [List.length_append, List.length_cons, List.length_nil] at this size ⊢
      omega

/-- The loop does not end while others go on pushing. -/
theorem drain_eq_none (hgo : go) (busy : ∀ k, pushes k ≠ []) (fuel k : ℕ) (queue batch : List α) :
    drain go pushes fuel k queue batch = none := by
  induction fuel generalizing k queue batch with
  | zero => rfl
  | succ fuel ih =>
    rw [drain, if_pos hgo]
    split
    · rename_i empty
      exact absurd (List.append_eq_nil_iff.1 empty).2 (busy k)
    · exact ih ..

/-- The batch has at most a tenth of `queue`, rounded up, and is what comes first. -/
def BoundedBatch (pushes : ℕ → List α) (queue : List α)
    (get : ℕ → Option (List α × List α)) : Prop :=
  ∃ fuel batch rest, get fuel = some (batch, rest) ∧ batch.length ≤ ⌈(queue.length : ℚ) / 10⌉₊ ∧
    ∃ m, batch ++ rest = queue ++ ((List.range m).map pushes).flatten

theorem le_one_of_le_ceil {n : ℕ} (h : n ≤ ⌈(n : ℚ) / 10⌉₊) : n ≤ 1 := by
  by_contra large
  have two : (2 : ℚ) ≤ n := by exact_mod_cast not_le.1 large
  have below : ((⌈(n : ℚ) / 10⌉₊ : ℕ) : ℚ) < n / 10 + 1 := Nat.ceil_lt_add_one (by linarith)
  have : (n : ℚ) ≤ ⌈(n : ℚ) / 10⌉₊ := by exact_mod_cast h
  linarith

/-- The loop keeps to the amount only if the queue had one parcel and nothing was pushed until it
found the queue empty. -/
theorem boundedBatch_drain_iff (hgo : go) (hn : 1 ≤ queue.length) :
    BoundedBatch pushes queue (fun fuel => drain go pushes fuel 0 queue []) ↔
      queue.length = 1 ∧ pushes 0 = [] ∧ pushes 1 = [] := by
  constructor
  · rintro ⟨fuel, batch, rest, h, small, -⟩
    have all := length_le_of_drain hgo h
    have one : queue.length = 1 :=
      le_antisymm (le_one_of_le_ceil (by simpa using all.trans small)) hn
    have amount : ⌈((queue.length : ℕ) : ℚ) / 10⌉₊ = 1 := by
      rw [one]
      norm_num [Nat.ceil_eq_iff]
    rw [amount] at small
    obtain ⟨head, rfl⟩ := List.length_eq_one_iff.1 one
    cases fuel with
    | zero => cases h
    | succ fuel =>
      simp only [drain, if_pos hgo, List.singleton_append] at h
      have first := length_le_of_drain hgo h
      have none_first : pushes 0 = [] := by
        rw [← List.length_eq_zero_iff]
        simp only [List.nil_append, List.length_singleton] at first
        omega
      refine ⟨one, none_first, ?_⟩
      cases fuel with
      | zero => cases h
      | succ fuel =>
        rw [drain, if_pos hgo, none_first] at h
        cases second : pushes (0 + 1) with
        | nil => rfl
        | cons next later =>
          simp only [second, List.nil_append] at h
          have := length_le_of_drain hgo h
          simp only [List.length_append, List.length_singleton] at this
          omega
  · rintro ⟨one, first, second⟩
    obtain ⟨head, rfl⟩ := List.length_eq_one_iff.1 one
    refine ⟨2, [head], [], ?_, ?_, 0, by simp⟩
    · simp [drain, if_pos hgo, first, second]
    · norm_num [Nat.one_le_ceil_iff]

/-! ## The two loops -/

variable {D : Deployment} {task : SourceTask} {i server : ℕ} {sh : Shared}

/-- Other clients push the parcels onto the write queue. -/
def Shared.pushWrites (sh : Shared) (server : ℕ) (parcels : List Parcel) : Shared :=
  parcels.foldl (·.pushWrite server ·) sh

/-- Other clients push the parcels onto the read queue. -/
def Shared.pushReads (sh : Shared) (server : ℕ) (parcels : List Parcel) : Shared :=
  parcels.foldl (·.pushRead server ·) sh

/-- The loop of `GetWriteParsel` from its `k`-th `Pop` on: the batch, and the queue it leaves. -/
def popWrites (task : SourceTask) (D : Deployment) (i server : ℕ) (pushes : ℕ → List Parcel) :
    ℕ → ℕ → Shared → WriteSourcePC → Option (List Parcel × List Parcel)
  | fuel + 1, k, sh, .pop amount parcels =>
    match queueSourceStep task D i server (sh.pushWrites server (pushes k))
      (.pop amount parcels) with
    | (sh, .pop amount parcels) => popWrites task D i server pushes fuel (k + 1) sh
        (.pop amount parcels)
    | (sh, _) => some (parcels, sh.writeQueue server)
  | _, _, _, _ => none

/-- `GetWriteParsel`, while other clients push `pushes k` before its `k`-th `Pop`. -/
def getWriteParsel (task : SourceTask) (D : Deployment) (i server : ℕ)
    (pushes : ℕ → List Parcel) (sh : Shared) (fuel : ℕ) : Option (List Parcel × List Parcel) :=
  let (sh, pc) := queueSourceStep task D i server sh .wait
  popWrites task D i server pushes fuel 0 sh pc

/-- The loop of `GetReadParsel` from its `k`-th `Pop` on: the batch, and the queue it leaves. -/
def popReads (server : ℕ) (pushes : ℕ → List Parcel) :
    ℕ → ℕ → Shared → ReadSourcePC → Option (List Parcel × List Parcel)
  | fuel + 1, k, sh, .pop amount parcels =>
    match readSourceStep server (sh.pushReads server (pushes k)) (.pop amount parcels) with
    | (sh, .pop amount parcels) => popReads server pushes fuel (k + 1) sh (.pop amount parcels)
    | (sh, _) => some (parcels, sh.readQueue server)
  | _, _, _, _ => none

/-- `GetReadParsel`, while other clients push `pushes k` before its `k`-th `Pop`. -/
def getReadParsel (server : ℕ) (pushes : ℕ → List Parcel) (sh : Shared) (fuel : ℕ) :
    Option (List Parcel × List Parcel) :=
  let (sh, pc) := readSourceStep server sh .wait
  popReads server pushes fuel 0 sh pc

theorem pushWrites_writeQueue (sh : Shared) (server : ℕ) (parcels : List Parcel) :
    (sh.pushWrites server parcels).writeQueue server = sh.writeQueue server ++ parcels := by
  unfold Shared.pushWrites
  induction parcels generalizing sh with
  | nil => exact (List.append_nil _).symm
  | cons parcel parcels ih =>
    rw [List.foldl_cons, ih]
    simp

theorem pushReads_readQueue (sh : Shared) (server : ℕ) (parcels : List Parcel) :
    (sh.pushReads server parcels).readQueue server = sh.readQueue server ++ parcels := by
  unfold Shared.pushReads
  induction parcels generalizing sh with
  | nil => exact (List.append_nil _).symm
  | cons parcel parcels ih =>
    rw [List.foldl_cons, ih]
    simp

theorem popWrites_eq_drain (task : SourceTask) (D : Deployment) (i server : ℕ)
    (pushes : ℕ → List Parcel) (amount : ℚ) (fuel k : ℕ) (sh : Shared) (parcels : List Parcel) :
    popWrites task D i server pushes fuel k sh (.pop amount parcels) =
      drain (0 < amount) pushes fuel k (sh.writeQueue server) parcels := by
  induction fuel generalizing k sh parcels with
  | zero => rfl
  | succ fuel ih =>
    have queue := pushWrites_writeQueue sh server (pushes k)
    by_cases go : 0 < amount
    · cases h : sh.writeQueue server ++ pushes k with
      | nil =>
        rw [h] at queue
        simp only [popWrites, drain, queueSourceStep, go, if_true, queue, h]
        cases parcels <;> simp [WriteSourcePC.next, queue]
      | cons head rest =>
        rw [h] at queue
        simp only [popWrites, drain, queueSourceStep, go, if_true, queue, h, ih,
          Function.update_self]
    · simp only [popWrites, drain, queueSourceStep, go, if_false]
      cases parcels <;> simp [WriteSourcePC.next, queue]

theorem popReads_eq_drain (server : ℕ) (pushes : ℕ → List Parcel) (amount : ℚ) (fuel k : ℕ)
    (sh : Shared) (parcels : List Parcel) :
    popReads server pushes fuel k sh (.pop amount parcels) =
      drain (0 < amount) pushes fuel k (sh.readQueue server) parcels := by
  induction fuel generalizing k sh parcels with
  | zero => rfl
  | succ fuel ih =>
    have queue := pushReads_readQueue sh server (pushes k)
    by_cases go : 0 < amount
    · cases h : sh.readQueue server ++ pushes k with
      | nil =>
        rw [h] at queue
        simp only [popReads, drain, readSourceStep, go, if_true, queue, h]
        cases parcels <;> simp [ReadSourcePC.next, queue]
      | cons head rest =>
        rw [h] at queue
        simp only [popReads, drain, readSourceStep, go, if_true, queue, h, ih,
          Function.update_self]
    · simp only [popReads, drain, readSourceStep, go, if_false]
      cases parcels <;> simp [ReadSourcePC.next, queue]

theorem getWriteParsel_eq_drain (task : SourceTask) (D : Deployment) (i server : ℕ)
    (pushes : ℕ → List Parcel) (sh : Shared) (fuel : ℕ) :
    getWriteParsel task D i server pushes sh fuel =
      drain (0 < batchAmount (sh.writeQueue server).length) pushes fuel 0
        (sh.writeQueue server) [] :=
  popWrites_eq_drain ..

theorem getReadParsel_eq_drain (server : ℕ) (pushes : ℕ → List Parcel) (sh : Shared) (fuel : ℕ) :
    getReadParsel server pushes sh fuel =
      drain (0 < batchAmount (sh.readQueue server).length) pushes fuel 0
        (sh.readQueue server) [] :=
  popReads_eq_drain ..

theorem batchAmount_pos {n : ℕ} (h : 1 ≤ n) : 0 < batchAmount n := by
  have pos : (0 : ℚ) < n := by exact_mod_cast h
  unfold batchAmount
  split_ifs <;> positivity

/-- A collector's batch keeps to the amount that is computed, whatever others push, exactly when the
queue had one parcel and nothing was pushed until the second `Pop`. -/
theorem boundedBatch_iff (task : SourceTask) (D : Deployment) (i server : ℕ)
    (pushes : ℕ → List Parcel) (sh : Shared) :
    (1 ≤ (sh.writeQueue server).length →
        (BoundedBatch pushes (sh.writeQueue server) (getWriteParsel task D i server pushes sh) ↔
          (sh.writeQueue server).length = 1 ∧ pushes 0 = [] ∧ pushes 1 = [])) ∧
      (1 ≤ (sh.readQueue server).length →
        (BoundedBatch pushes (sh.readQueue server) (getReadParsel server pushes sh) ↔
          (sh.readQueue server).length = 1 ∧ pushes 0 = [] ∧ pushes 1 = [])) := by
  constructor
  · intro hn
    have eq := funext (getWriteParsel_eq_drain task D i server pushes sh)
    rw [eq]
    exact boundedBatch_drain_iff (batchAmount_pos hn) hn
  · intro hn
    have eq := funext (getReadParsel_eq_drain server pushes sh)
    rw [eq]
    exact boundedBatch_drain_iff (batchAmount_pos hn) hn

/-- A shared state in which both queues of every server hold `parcels`. -/
def Shared.queued (parcels : List Parcel) : Shared where
  warehouse _ := none
  writeQueue _ := parcels
  readQueue _ := parcels
  parselState _ := none
  files _ := none
  clock := 0
  writeStream := []
  writeInbox := []
  readInbox := []

/-- One parcel is taken, and nothing else was there. -/
theorem boundedBatch_iff_one :
    let p : Parcel := { id := "f", position := 0, dataSize := 1, uniqueId := 1 }
    BoundedBatch (fun _ => []) [p] (getWriteParsel rheaWriteQueueSourceTask (.single .rhea) 0 0
        (fun _ => []) (.queued [p])) ∧
      BoundedBatch (fun _ => []) [p] (getReadParsel 0 (fun _ => []) (.queued [p])) := by
  intro p
  have both := boundedBatch_iff rheaWriteQueueSourceTask (.single .rhea) 0 0 (fun _ => [])
    (.queued [p])
  exact ⟨(both.1 le_rfl).2 ⟨rfl, rfl, rfl⟩, (both.2 le_rfl).2 ⟨rfl, rfl, rfl⟩⟩

/-- Of two parcels, both are taken where the amount is a fifth; and while others push a parcel before
every `Pop`, the call does not end. -/
theorem not_boundedBatch :
    let p : Parcel := { id := "f", position := 0, dataSize := 1, uniqueId := 1 }
    let q : Parcel := { id := "f", position := 1, dataSize := 1, uniqueId := 2 }
    let get := getWriteParsel rheaWriteQueueSourceTask (.single .rhea) 0 0
    ¬ BoundedBatch (fun _ => []) [p, q] (get (fun _ => []) (.queued [p, q])) ∧
      ¬ BoundedBatch (fun _ => []) [p, q] (getReadParsel 0 (fun _ => []) (.queued [p, q])) ∧
      ∀ fuel, get (fun _ => [q]) (.queued [p]) fuel = none ∧
        getReadParsel 0 (fun _ => [q]) (.queued [p]) fuel = none := by
  intro p q get
  have two : 0 < batchAmount 2 := batchAmount_pos (by decide)
  have one : 0 < batchAmount 1 := batchAmount_pos le_rfl
  have busy : ∀ k : ℕ, (fun _ => [q]) k ≠ [] := by simp
  refine ⟨?_, ?_, fun fuel => ⟨?_, ?_⟩⟩
  · rintro ⟨fuel, batch, rest, h, small, -⟩
    have all := length_le_of_drain two ((getWriteParsel_eq_drain ..).symm.trans h)
    exact absurd (le_one_of_le_ceil (all.trans small)) (by decide)
  · rintro ⟨fuel, batch, rest, h, small, -⟩
    have all := length_le_of_drain two ((getReadParsel_eq_drain ..).symm.trans h)
    exact absurd (le_one_of_le_ceil (all.trans small)) (by decide)
  · exact (getWriteParsel_eq_drain ..).trans (drain_eq_none one busy ..)
  · exact (getReadParsel_eq_drain ..).trans (drain_eq_none one busy ..)

end Rhea
