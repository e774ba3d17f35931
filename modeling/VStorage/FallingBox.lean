/-
`falling_box.py`: data that moves between two buffers, a chunk at a time.

A whole round of the copying loop leaves the source in the destination
(`copyChunks_eq`), whatever was there and whatever the length, so a hop changes where
the data is and not what it is (`holds_fall`).
-/
import Mathlib
import VStorage.SplitKeyGuard

/-- `BOX_SIZE`. -/
def boxSize : ℕ := 64 * 1024

/-- `dst[i:i + len(chunk)] = chunk`, on a `bytearray`. -/
def assignSlice (dst : Bytes) (i : ℕ) (chunk : Bytes) : Bytes :=
  dst.take i ++ chunk ++ dst.drop (i + chunk.length)

/-- `for i in range(0, length, BOX_SIZE)`: one chunk after another from `src` to `dst`. -/
def copyChunks (length : ℕ) (src dst : Bytes) : Bytes :=
  (List.range ((length + boxSize - 1) / boxSize)).foldl (fun dst i =>
    assignSlice dst (i * boxSize) ((src.drop (i * boxSize)).take boxSize)) dst

/-- A chunk that the loop takes begins within the data. -/
theorem chunk_le {length m : ℕ} (hm : m + 1 ≤ (length + boxSize - 1) / boxSize) :
    m * boxSize ≤ length := by
  have hmul := Nat.mul_le_of_le_div _ _ _ hm
  rw [Nat.succ_mul] at hmul
  omega

/-- Rounding up, the chunks reach the end. -/
theorem le_chunks (length : ℕ) : length ≤ (length + boxSize - 1) / boxSize * boxSize := by
  have hpos : 0 < boxSize := by decide
  have := Nat.div_add_mod (length + boxSize - 1) boxSize
  have := Nat.mod_lt (length + boxSize - 1) hpos
  rw [Nat.mul_comm]
  omega

/-- One chunk more has been copied. -/
theorem assignSlice_chunk {src dst : Bytes} (h : dst.length = src.length) {i : ℕ}
    (hi : i * boxSize ≤ src.length) :
    assignSlice (src.take (i * boxSize) ++ dst.drop (i * boxSize)) (i * boxSize)
        ((src.drop (i * boxSize)).take boxSize)
      = src.take ((i + 1) * boxSize) ++ dst.drop ((i + 1) * boxSize) := by
  have hlen : (src.take (i * boxSize)).length = i * boxSize := by
    rw [List.length_take, min_eq_left hi]
  rw [assignSlice, List.take_left' hlen, Nat.succ_mul, List.take_add, ← List.drop_drop,
    List.drop_left' hlen, List.drop_drop]
  congr 1
  -- the last chunk may be short, and then nothing is left on either side
  rw [List.length_take, List.length_drop]
  rcases Nat.le_total boxSize (src.length - i * boxSize) with hle | hle
  · rw [min_eq_left hle]
  · rw [min_eq_right hle, List.drop_eq_nil_of_le (by omega), List.drop_eq_nil_of_le (by omega)]

/-- **Copying.**  The loop copies everything, whatever the length. -/
theorem copyChunks_eq {src dst : Bytes} (h : dst.length = src.length) :
    copyChunks src.length src dst = src := by
  have hloop : ∀ m, m ≤ (src.length + boxSize - 1) / boxSize →
      (List.range m).foldl (fun dst i =>
          assignSlice dst (i * boxSize) ((src.drop (i * boxSize)).take boxSize)) dst
        = src.take (m * boxSize) ++ dst.drop (m * boxSize) := by
    -- by induction on the number of chunks: so much of `src`, and the rest of `dst`
    intro m hm
    induction m with
    | zero => simp
    | succ m ih =>
      rw [List.range_succ, List.foldl_append, ih (by omega), List.foldl_cons, List.foldl_nil]
      exact assignSlice_chunk h (chunk_le hm)
  have hcover := le_chunks src.length
  rw [copyChunks, hloop _ le_rfl, List.take_of_length_le hcover,
    List.drop_eq_nil_of_le (h ▸ hcover), List.append_nil]

/-- Whatever the lengths are, the destination grows as far as the chunks reach. -/
theorem length_copyChunks (length : ℕ) (src dst : Bytes) :
    (copyChunks length src dst).length
      = max dst.length (min src.length ((length + boxSize - 1) / boxSize * boxSize)) := by
  have hloop : ∀ m, ((List.range m).foldl (fun dst i =>
      assignSlice dst (i * boxSize) ((src.drop (i * boxSize)).take boxSize)) dst).length
        = max dst.length (min src.length (m * boxSize)) := by
    intro m
    induction m with
    | zero => simp
    | succ m ih =>
      rw [List.range_succ, List.foldl_append, List.foldl_cons, List.foldl_nil, assignSlice,
        List.length_append, List.length_append, List.length_take, List.length_drop,
        List.length_take, List.length_drop, ih, Nat.succ_mul]
      omega
  exact hloop _

/-- `FallingBox`. -/
structure FallingBox where
  boxA : Bytes
  boxB : Bytes
  active : Side
  hops : ℕ

namespace FallingBox

/-- `__init__`. -/
def new (data : Bytes) : FallingBox where
  boxA := data
  boxB := List.replicate data.length 0
  active := .a
  hops := 0

/-- One round of `_fall_forever`. -/
def fall (box : FallingBox) : FallingBox :=
  match box.active with
  | .a => { box with
      boxB := copyChunks box.boxA.length box.boxA box.boxB, active := .b, hops := box.hops + 1 }
  | .b => { box with
      boxA := copyChunks box.boxB.length box.boxB box.boxA, active := .a, hops := box.hops + 1 }

/-- `snapshot`: pausing keeps the falling thread out, and the lock does. -/
def snapshot (box : FallingBox) : Bytes :=
  match box.active with
  | .a => box.boxA
  | .b => box.boxB

/-- `collapse`.  The falling thread is taken to end within the second that `join` waits for it; one
that is stopped for longer, in the middle of a round, would still write its chunk. -/
def collapse (box : FallingBox) : FallingBox := { box with boxA := [], boxB := [] }

/-- The box holds `data`, with as much room in the other buffer. -/
structure Holds (data : Bytes) (box : FallingBox) : Prop where
  snapshot : box.snapshot = data
  length : box.boxA.length = box.boxB.length

theorem holds_new (data : Bytes) : (new data).Holds data := ⟨rfl, List.length_replicate.symm⟩

/-- A hop keeps the data. -/
theorem holds_fall {data : Bytes} {box : FallingBox} (h : box.Holds data) :
    box.fall.Holds data := by
  obtain ⟨hdata, hlen⟩ := h
  cases hactive : box.active with
  | a =>
    rw [snapshot, hactive] at hdata
    rw [fall, hactive]
    dsimp only
    rw [copyChunks_eq hlen.symm]
    exact ⟨hdata, rfl⟩
  | b =>
    rw [snapshot, hactive] at hdata
    rw [fall, hactive]
    dsimp only
    rw [copyChunks_eq hlen]
    exact ⟨hdata, rfl⟩

end FallingBox
