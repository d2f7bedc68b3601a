import Rhea.ReadJob
import Rhea.Lib.Runs

/-!
# The whole system

Any number of clients, write collectors, write sinks, read collectors and read sinks, numbered by
natural numbers, act on the shared state in any order.  An action is one atomic operation of one
process with the local computation up to its next one, so a `ParcelState` is made, with its timestamp,
before it is put; `deliverWrite j n` and `deliverRead j n` hand the `n`-th parcel that waits behind an `emit`
to the idle sink `j`.
-/

namespace Rhea

open Transition

/-- The state of the system: what is shared, and the program point of every process. -/
structure Sys extends Shared where
  client : ℕ → ClientPC
  writeSource : ℕ → WriteSourcePC
  writeSink : ℕ → WriteSinkPC
  readSource : ℕ → ReadSourcePC
  readSink : ℕ → ReadSinkPC

/-- The next atomic operation, and of which process. -/
inductive Action
  | call (c : ℕ) (request : Call)
  | client (c : ℕ)
  | fail (c : ℕ)
  | writeSource (i : ℕ)
  | deliverWrite (j n : ℕ)
  | writeSink (j : ℕ)
  | readSource (i : ℕ)
  | deliverRead (j n : ℕ)
  | readSink (j : ℕ)
  | tick (now : ℕ)
  deriving DecidableEq, Repr

variable (D : Deployment)

/-- The state after an action, `none` when the action is not enabled. -/
def step (s : Sys) : Action → Option Sys
  | .call c request =>
    if (s.client c).free then
      some { s with client := Function.update s.client c (clientStart request) }
    else none
  | .client c => (clientStep D c s.toShared (s.client c)).map fun (sh, pc) =>
      { s with toShared := sh, client := Function.update s.client c pc }
  | .fail c => (clientFail (s.client c)).map fun pc =>
      { s with client := Function.update s.client c pc }
  | .writeSource i =>
    let (sh, pc) := queueSourceStep (D.writeJob i).source D i (D.writeServer i) s.toShared
      (s.writeSource i)
    some { s with toShared := sh, writeSource := Function.update s.writeSource i pc }
  | .deliverWrite j n =>
    match s.writeSink j, s.writeInbox[n]? with
    | .idle, some event =>
      some { s with
        writeInbox := s.writeInbox.eraseIdx n
        writeSink := Function.update s.writeSink j (.read event) }
    | _, _ => none
  | .writeSink j => (writeSinkStep D s.toShared (s.writeSink j)).map fun (sh, pc) =>
      { s with toShared := sh, writeSink := Function.update s.writeSink j pc }
  | .readSource i =>
    let (sh, pc) := readSourceStep (D.readServer i) s.toShared (s.readSource i)
    some { s with toShared := sh, readSource := Function.update s.readSource i pc }
  | .deliverRead j n =>
    match s.readSink j, s.readInbox[n]? with
    | .idle, some event =>
      some { s with
        readInbox := s.readInbox.eraseIdx n
        readSink := Function.update s.readSink j (.read event) }
    | _, _ => none
  | .readSink j => (readSinkStep D s.toShared (s.readSink j)).map fun (sh, pc) =>
      { s with toShared := sh, readSink := Function.update s.readSink j pc }
  | .tick now => some { s with clock := now }

/-- The system before the first call, over the files `files`. -/
def Sys.init (files : Files) : Sys where
  warehouse _ := none
  writeQueue _ := []
  readQueue _ := []
  parselState _ := none
  files := files
  clock := 0
  writeStream := []
  writeInbox := []
  readInbox := []
  client _ := .idle
  writeSource _ := .wait
  writeSink _ := .idle
  readSource _ := .wait
  readSink _ := .idle

/-- The state after a run over the files `files`. -/
abbrev run (files : Files) (acts : List Action) : Option Sys :=
  exec (step D) (Sys.init files) acts

end Rhea
