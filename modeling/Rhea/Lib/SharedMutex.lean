import Mathlib

/-!
# Shared mutexes

A mutex is held by one thread exclusively or by any number of shared locks.  A thread that wants it
exclusively first joins the waiting ones.  The C++ standard leaves open whether a request for a shared
lock waits for these: `yields` says whether the implementation makes it wait.
-/

variable {ι : Type*}

/-- The state of a mutex. -/
structure SharedMutex (ι : Type*) where
  /-- the thread that holds it exclusively -/
  owner : Option ι
  /-- how many shared locks there are -/
  holds : ℕ
  /-- the threads that wait for exclusive ownership -/
  waiting : Multiset ι

namespace SharedMutex

/-- Nobody holds the mutex or waits for it. -/
def free : SharedMutex ι := ⟨none, 0, 0⟩

/-- Thread `i` begins to wait for exclusive ownership. -/
def request (m : SharedMutex ι) (i : ι) : SharedMutex ι := { m with waiting := i ::ₘ m.waiting }

/-- Thread `i`, which waits, gets exclusive ownership. -/
def lock [DecidableEq ι] (m : SharedMutex ι) (i : ι) : Option (SharedMutex ι) :=
  if m.owner = none ∧ m.holds = 0 then
    some { m with owner := some i, waiting := m.waiting.erase i }
  else none

/-- The exclusive owner leaves. -/
def unlock (m : SharedMutex ι) : SharedMutex ι := { m with owner := none }

/-- One more shared lock. -/
def lockShared [DecidableEq ι] (yields : Bool) (m : SharedMutex ι) : Option (SharedMutex ι) :=
  if m.owner = none ∧ (yields = true → m.waiting = 0) then some { m with holds := m.holds + 1 }
  else none

/-- One shared lock less. -/
def unlockShared (m : SharedMutex ι) : SharedMutex ι := { m with holds := m.holds - 1 }

/-- There is no owner beside a shared lock. -/
def Exclusive (m : SharedMutex ι) : Prop := m.owner ≠ none → m.holds = 0

variable {m m' : SharedMutex ι} {i : ι} {yields : Bool}

theorem exclusive_free : Exclusive (free : SharedMutex ι) := fun h => absurd rfl h

theorem Exclusive.request (h : m.Exclusive) (i : ι) : (m.request i).Exclusive := h

theorem Exclusive.unlock (m : SharedMutex ι) : m.unlock.Exclusive := fun h => absurd rfl h

theorem Exclusive.unlockShared (h : m.Exclusive) : m.unlockShared.Exclusive := by
  intro owned
  show m.holds - 1 = 0
  rw [h owned]

theorem Exclusive.lock [DecidableEq ι] (hm : m.lock i = some m') : m'.Exclusive := by
  unfold SharedMutex.lock at hm
  split_ifs at hm with free
  obtain rfl := Option.some.inj hm
  exact fun _ => free.2

theorem Exclusive.lockShared [DecidableEq ι] (hm : m.lockShared yields = some m') :
    m'.Exclusive := by
  unfold SharedMutex.lockShared at hm
  split_ifs at hm with free
  obtain rfl := Option.some.inj hm
  exact fun owned => absurd free.1 owned

end SharedMutex
