import Rhea.Client

/-!
# The readers of the warehouse

`Subscribe` and `GetSubscribedData` convert what the warehouse holds to a `CharStruct` before they
copy it; `GetData`, which the collectors use, does not.  `delivered_iff` says for which stored bytes
the three agree.
-/

namespace Rhea

open ByteFile

variable {D : Deployment} {c : ℕ} {sh : Shared} {p : Parcel} {v : Bytes} {size : ℕ}

theorem prefix_charStruct (size : ℕ) (v : Bytes) : charStruct size v <+: v :=
  (List.take_prefix ..).trans (List.takeWhile_prefix _)

/-- The conversion to `CharStruct` keeps exactly the strings without zero bytes that fit. -/
theorem charStruct_eq_self_iff :
    charStruct size v = v ↔ (∀ b ∈ v, b ≠ 0) ∧ v.length ≤ size := by
  refine ⟨fun h => ?_, fun h => charStruct_eq_self h.1 h.2⟩
  have whole : v.takeWhile (· ≠ 0) = v := by
    refine (List.takeWhile_prefix _).eq_of_length_le ?_
    have := congrArg List.length h
    rw [charStruct, List.length_take] at this
    omega
  refine ⟨by simpa [List.takeWhile_eq_self_iff] using whole, ?_⟩
  have := congrArg List.length h
  rw [charStruct, whole, List.length_take] at this
  omega

theorem eq_of_blit {d : Bytes} (h : d <+: v)
    (fills : ∀ data : Bytes, data.length = v.length → blit data d = v) : d = v := by
  obtain ⟨rest, rfl⟩ := h
  -- a buffer that differs from the bytes in every place
  have seen := fills ((d ++ rest).map (· + 1)) (by simp)
  simp only [blit, List.map_append, List.append_cancel_left_eq] at seen
  rw [List.drop_left' (by simp)] at seen
  cases rest with
  | nil => exact (List.append_nil d).symm
  | cons b rest =>
    have next : b + 1 = b := (List.cons.inj seen).1
    simp at next

/-- The copies of `Subscribe` and `GetSubscribedData` and the result of `GetData` are all the stored
bytes, for every buffer of the caller, exactly when these contain no zero byte and fit into a
`CharStruct`. -/
theorem delivered_iff (held : sh.warehouse p.key = some v) (length : v.length = p.dataSize) :
    (∀ data : Bytes, p.dataSize ≤ data.length →
        clientStep D c sh (.subscribeGet p data) =
            some (sh, .subscribeErase p true (v ++ data.drop p.dataSize)) ∧
          clientStep D c sh (.getDataGet p data) =
            some (sh, .getDataErase p (v ++ data.drop p.dataSize)) ∧
          sh.getData p = v) ↔
      (∀ b ∈ v, b ≠ 0) ∧ v.length ≤ D.charStructSize := by
  have stored : sh.getData p = v := by simp [Shared.getData, held]
  rw [← charStruct_eq_self_iff]
  constructor
  · intro deliver
    refine eq_of_blit (prefix_charStruct ..) fun data hdata => ?_
    have copied := (deliver data (by omega)).1
    simp only [clientStep, stored, held, Option.some.injEq, Prod.mk.injEq, true_and,
      ClientPC.subscribeErase.injEq] at copied
    rw [copied.2, List.drop_of_length_le (by omega), List.append_nil]
  · intro same data _
    have copy : blit data v = v ++ data.drop p.dataSize := by rw [blit, length]
    simp [clientStep, stored, held, same, copy]

/-- The shared state in which the warehouse holds `v` for `p` and nothing else is stored. -/
def Shared.holding (p : Parcel) (v : Bytes) : Shared where
  warehouse := Function.update (fun _ => none) p.key (some v)
  writeQueue _ := []
  readQueue _ := []
  parselState _ := none
  files _ := none
  clock := 0
  writeStream := []
  writeInbox := []
  readInbox := []

/-- Two printable bytes are delivered. -/
theorem delivered_iff_printable :
    let p : Parcel := { id := "f", position := 0, dataSize := 2, uniqueId := 1 }
    clientStep (.single .rhea) 0 (.holding p [97, 98]) (.subscribeGet p [1, 1]) =
      some (.holding p [97, 98], .subscribeErase p true [97, 98]) := by
  intro p
  have held : (Shared.holding p [97, 98]).warehouse p.key = some [97, 98] := by
    simp [Shared.holding]
  exact ((delivered_iff (D := .single .rhea) (c := 0) held rfl).2 ⟨by simp, by decide⟩ [1, 1]
    le_rfl).1

/-- Of the bytes 97, 0, 98 only the first is copied, and `GetData` has all of them. -/
theorem not_delivered :
    let p : Parcel := { id := "f", position := 0, dataSize := 3, uniqueId := 1 }
    let sh := Shared.holding p [97, 0, 98]
    clientStep (.single .rhea) 0 sh (.subscribeGet p [1, 1, 1]) =
        some (sh, .subscribeErase p true [97, 1, 1]) ∧
      clientStep (.single .rhea) 0 sh (.getDataGet p [1, 1, 1]) =
        some (sh, .getDataErase p [97, 1, 1]) ∧
      sh.getData p = [97, 0, 98] :=
  ⟨rfl, rfl, rfl⟩

end Rhea
