import Rhea.FileIO

/-!
# The client library

`ClientPC` is the program point of a client process: which store operation of `rhea::Client` it
performs next, with the values it holds.  `clientStart` enters a call, `clientStep` performs the
next store operation, `clientFail` is that operation returning `false` where the code looks at the
result.  `Wait` runs for the application, inside `Subscribe` and inside `WaitAll`; `AfterWait` says
where it returns to.
-/

namespace Rhea

open ByteFile

/-- A call of the application into the library. -/
inductive Call
  | publish (parcel : Parcel) (data : Bytes)
  | subscribe (parcel : Parcel) (data : Bytes)
  | asyncSubscribe (parcel : Parcel)
  | getSubscribedData (parcel : Parcel) (data : Bytes)
  | wait (parcel : Parcel)
  | waitAll (parcels : List Parcel)
  deriving DecidableEq, Repr

/-- What a call returns, with the caller's buffer where the call fills one. -/
inductive Return
  | publish (status : Bool)
  | subscribe (result : Bool) (data : Bytes)
  | asyncSubscribe (status : Bool)
  | getSubscribedData (result : Bool) (data : Bytes)
  | wait (state : ParcelState)
  | waitAll (states : List ParcelState)
  deriving DecidableEq, Repr

/-- The caller of `Wait`. -/
inductive AfterWait
  | application
  | subscribe (data : Bytes)
  | waitAll (rest : List Parcel) (states : List ParcelState)
  deriving DecidableEq, Repr

/-- The next store operation of a client. -/
inductive ClientPC
  | idle
  /-- `Publish`: `warehouse->Put` -/
  | publishPut (parcel : Parcel) (dataStr : Bytes)
  /-- `Publish`: `write_queue->Push` -/
  | publishPush (parcel : Parcel)
  /-- `Publish`: `parsel_state->Put` of the state `QUEUED` made at `timestamp` -/
  | publishState (parcel : Parcel) (timestamp : ℕ)
  /-- `Subscribe`: `read_queue->Push` -/
  | subscribePush (parcel : Parcel) (data : Bytes)
  /-- `AsyncSubscribe`: `read_queue->Push` -/
  | asyncPush (parcel : Parcel)
  /-- `Wait`: `parsel_state->Get` -/
  | waitGet (parcel : Parcel) (after : AfterWait)
  /-- `Wait`: `parsel_state->Erase`, the result of the poll in hand -/
  | waitErase (parcel : Parcel) (result : ParcelState) (after : AfterWait)
  /-- `Subscribe`: `warehouse->Get` and the copy to the caller -/
  | subscribeGet (parcel : Parcel) (data : Bytes)
  /-- `Subscribe`: `warehouse->Erase` -/
  | subscribeErase (parcel : Parcel) (result : Bool) (data : Bytes)
  /-- `GetSubscribedData`: `warehouse->Get` and the copy to the caller -/
  | getDataGet (parcel : Parcel) (data : Bytes)
  /-- `GetSubscribedData`: `warehouse->Erase` -/
  | getDataErase (parcel : Parcel) (data : Bytes)
  | returned (value : Return)
  deriving DecidableEq, Repr

/-- `CharStruct(std::string)` and back: the C string in a buffer of fixed capacity. -/
def charStruct (size : ℕ) (value : Bytes) : Bytes := (value.takeWhile (· ≠ 0)).take size

theorem charStruct_eq_self {size : ℕ} {value : Bytes} (nonzero : ∀ b ∈ value, b ≠ 0)
    (fits : value.length ≤ size) : charStruct size value = value := by
  unfold charStruct
  rw [List.takeWhile_eq_self_iff.2 (by simpa using nonzero), List.take_of_length_le fits]

/-- The loop head of `WaitAll`. -/
def waitAllNext : List Parcel → List ParcelState → ClientPC
  | [], states => .returned (.waitAll states)
  | parcel :: rest, states => .waitGet parcel (.waitAll rest states)

/-- Where `Wait` returns to with `result`. -/
def waitReturn (parcel : Parcel) (result : ParcelState) : AfterWait → ClientPC
  | .application => .returned (.wait result)
  | .subscribe data => .subscribeGet parcel data
  | .waitAll rest states => waitAllNext rest (states ++ [result])

/-- Enter a call; `data_str` is made of the first `data_size_` bytes at `data`. -/
def clientStart : Call → ClientPC
  | .publish parcel data => .publishPut parcel (data.take parcel.dataSize)
  | .subscribe parcel data => .subscribePush parcel data
  | .asyncSubscribe parcel => .asyncPush parcel
  | .getSubscribedData parcel data => .getDataGet parcel data
  | .wait parcel => .waitGet parcel .application
  | .waitAll parcels => waitAllNext parcels []

/-- Whether a client can enter a call. -/
def ClientPC.free : ClientPC → Bool
  | .idle | .returned _ => true
  | _ => false

/-- One store operation of the client with number `c`, which succeeds. -/
def clientStep (D : Deployment) (c : ℕ) (sh : Shared) : ClientPC → Option (Shared × ClientPC)
  | .publishPut parcel dataStr => some (sh.putData parcel dataStr, .publishPush parcel)
  | .publishPush parcel =>
    some (sh.pushWrite (D.myServer c) parcel, .publishState parcel sh.clock)
  | .publishState parcel timestamp =>
    some (sh.updateParcelStatus parcel .queued timestamp, .returned (.publish true))
  | .subscribePush parcel data =>
    some (sh.pushRead (D.myServer c) parcel, .waitGet parcel (.subscribe data))
  | .asyncPush parcel =>
    some (sh.pushRead (D.myServer c) parcel, .returned (.asyncSubscribe true))
  | .waitGet parcel after =>
    match sh.parselState parcel.key with
    | some result =>
      -- `is_completed = result.first && result.second.status_ == DONE`, else `usleep` and poll again
      if result.status = .done then some (sh, .waitErase parcel result after)
      else some (sh, .waitGet parcel after)
    | none => some (sh, .waitGet parcel after)
  | .waitErase parcel result after => some (sh.eraseState parcel, waitReturn parcel result after)
  | .subscribeGet parcel data =>
    some (sh, .subscribeErase parcel (sh.warehouse parcel.key).isSome
      (blit data (charStruct D.charStructSize (sh.getData parcel))))
  | .subscribeErase parcel result data =>
    some (sh.deleteData parcel, .returned (.subscribe result data))
  | .getDataGet parcel data =>
    match sh.warehouse parcel.key with
    | some value => some (sh, .getDataErase parcel (blit data (charStruct D.charStructSize value)))
    | none => some (sh, .returned (.getSubscribedData false data))
  | .getDataErase parcel data =>
    some (sh.deleteData parcel, .returned (.getSubscribedData true data))
  | .idle | .returned _ => none

/-- The next store operation fails and changes nothing.  `Publish` and `AsyncSubscribe` return
`false`; `Subscribe` goes on to wait. -/
def clientFail : ClientPC → Option ClientPC
  | .publishPut _ _ | .publishPush _ | .publishState _ _ => some (.returned (.publish false))
  | .subscribePush parcel data => some (.waitGet parcel (.subscribe data))
  | .asyncPush _ => some (.returned (.asyncSubscribe false))
  | _ => none

variable {D : Deployment} {c : ℕ} {sh sh' : Shared} {pc : ClientPC} {parcel : Parcel}

/-- A client that polls goes on polling, or has found the status `DONE`. -/
theorem clientStep_waitGet {after : AfterWait}
    (hstep : clientStep D c sh (.waitGet parcel after) = some (sh', pc)) :
    pc = .waitGet parcel after ∨
      ∃ result, pc = .waitErase parcel result after ∧ sh.parselState parcel.key = some result ∧
        result.status = .done := by
  simp only [clientStep] at hstep
  split at hstep
  next result found =>
    split_ifs at hstep with completed
    · cases hstep
      exact .inr ⟨result, rfl, found, completed⟩
    · cases hstep
      exact .inl rfl
  next =>
    cases hstep
    exact .inl rfl

theorem clientStep_getDataGet {data : Bytes}
    (hstep : clientStep D c sh (.getDataGet parcel data) = some (sh', pc)) :
    (∃ result, pc = .returned result) ∨ ∃ found, pc = .getDataErase parcel found := by
  simp only [clientStep] at hstep
  split at hstep
  · cases hstep
    exact .inr ⟨_, rfl⟩
  · cases hstep
    exact .inl ⟨_, rfl⟩

end Rhea
