import Mathlib

/-!
# Byte strings written at offsets

`overlay f pos d` is the content of a file after the bytes `d` have been written at offset `pos`:
a gap before `pos` is filled with zeros, nothing is written when `d` is empty.  `slice` reads,
`blit` copies to the front of a buffer, and `Holds f pos d` says that the bytes at `pos` are exactly
`d`.  Everything is stated over an arbitrary type of bytes, with a zero where bytes are written.
-/

namespace ByteFile

variable {β : Type*}

/-! ## Reading -/

/-- The bytes of `f` in `[pos, pos + n)`, fewer when `f` is shorter. -/
def slice (f : List β) (pos n : ℕ) : List β := (f.drop pos).take n

/-- The content of a buffer after the bytes `d` have been copied to its front. -/
def blit (buffer d : List β) : List β := d ++ buffer.drop d.length

/-- The bytes of `f` from `pos` on begin with exactly `d`. -/
def Holds (f : List β) (pos : ℕ) (d : List β) : Prop := slice f pos d.length = d

instance [DecidableEq β] (f : List β) (pos : ℕ) (d : List β) : Decidable (Holds f pos d) :=
  inferInstanceAs (Decidable (slice f pos d.length = d))

theorem holds_iff_getElem? (f : List β) (pos : ℕ) (d : List β) :
    Holds f pos d ↔ ∀ i < d.length, f[pos + i]? = d[i]? := by
  unfold Holds slice
  constructor
  · intro h i hi
    have := congrArg (fun l : List β => l[i]?) h
    simpa [List.getElem?_take, hi] using this
  · intro h
    apply List.ext_getElem?
    intro i
    rw [List.getElem?_take]
    split_ifs with hi
    · rw [List.getElem?_drop, h i hi]
    · rw [List.getElem?_eq_none (by omega)]

theorem Holds.slice_eq {f : List β} {pos n : ℕ} {d : List β} (h : Holds f pos d)
    (hn : d.length = n) : slice f pos n = d := hn ▸ h

theorem slice_length_le (f : List β) (pos n : ℕ) : (slice f pos n).length ≤ n := by
  simp [slice]

theorem slice_zero_of_length {d : List β} {n : ℕ} (hn : d.length = n) : slice d 0 n = d := by
  subst hn
  simp [slice]

theorem blit_length {buffer d : List β} (h : d.length ≤ buffer.length) :
    (blit buffer d).length = buffer.length := by
  simp [blit]
  omega

theorem blit_of_length {buffer d : List β} (h : d.length = buffer.length) : blit buffer d = d := by
  simp [blit, h]

/-! ## Writing -/

section Writing

variable [Zero β]

/-- The content of `f` after `d` has been written at `pos`. -/
def overlay (f : List β) (pos : ℕ) (d : List β) : List β :=
  match d with
  | [] => f
  | _ :: _ => f.take pos ++ List.replicate (pos - f.length) 0 ++ d ++ f.drop (pos + d.length)

theorem overlay_of_ne_nil (f : List β) (pos : ℕ) {d : List β} (hd : d ≠ []) :
    overlay f pos d =
      f.take pos ++ List.replicate (pos - f.length) 0 ++ d ++ f.drop (pos + d.length) := by
  cases d with
  | nil => exact absurd rfl hd
  | cons => rfl

/-- Outside the written range an overlay keeps every byte that was there. -/
theorem getElem?_overlay_of_some {f : List β} {pos : ℕ} {d : List β} {i : ℕ} {b : β}
    (hb : f[i]? = some b) (out : i < pos ∨ pos + d.length ≤ i) :
    (overlay f pos d)[i]? = some b := by
  rcases eq_or_ne d [] with rfl | hd
  · exact hb
  have hi : i < f.length := (List.getElem?_eq_some_iff.1 hb).1
  rw [overlay_of_ne_nil f pos hd]
  rcases out with h | h
  · rw [List.append_assoc, List.append_assoc, List.getElem?_append_left (by simp; omega),
      List.getElem?_take_of_lt h, hb]
  · have hlen : (f.take pos ++ List.replicate (pos - f.length) 0 ++ d).length = pos + d.length := by
      simp
      omega
    rw [List.getElem?_append_right (by omega), hlen, List.getElem?_drop]
    rwa [Nat.add_sub_cancel' h]

/-- Inside the written range an overlay has the written bytes. -/
theorem getElem?_overlay_inside (f : List β) (pos : ℕ) {d : List β} {i : ℕ} (hi : i < d.length) :
    (overlay f pos d)[pos + i]? = d[i]? := by
  have hd : d ≠ [] := by
    rintro rfl
    simp at hi
  have hlen : (f.take pos ++ List.replicate (pos - f.length) 0 : List β).length = pos := by
    simp
    omega
  rw [overlay_of_ne_nil f pos hd, List.append_assoc,
    List.getElem?_append_right (by omega), hlen, Nat.add_sub_cancel_left,
    List.getElem?_append_left hi]

theorem holds_overlay (f : List β) (pos : ℕ) (d : List β) : Holds (overlay f pos d) pos d :=
  (holds_iff_getElem? _ _ _).2 fun _ hi => getElem?_overlay_inside f pos hi

/-- A write to a disjoint range keeps what is held. -/
theorem Holds.overlay {f : List β} {p q : ℕ} {d e : List β} (h : Holds f p d)
    (disjoint : p + d.length ≤ q ∨ q + e.length ≤ p) : Holds (overlay f q e) p d := by
  rw [holds_iff_getElem?] at h ⊢
  intro i hi
  obtain ⟨b, hb⟩ : ∃ b, d[i]? = some b := ⟨d[i], List.getElem?_eq_getElem hi⟩
  rw [hb]
  exact getElem?_overlay_of_some ((h i hi).trans hb) (by omega)

/-- Apply a sequence of writes, given by offset and bytes, in order. -/
def writeAll (f : Option (List β)) (writes : List (ℕ × List β)) : Option (List β) :=
  writes.foldl (fun g w => some (overlay (g.getD []) w.1 w.2)) f

theorem writeAll_append (f : Option (List β)) (v w : List (ℕ × List β)) :
    writeAll f (v ++ w) = writeAll (writeAll f v) w := List.foldl_append

end Writing

end ByteFile
