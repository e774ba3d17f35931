/-
Fixed-size buffers with slice reads and writes.

A buffer of any element type is a size and its contents; `read` takes a slice,
clamped at the end, and `write` overwrites one.  The laws are the usual ones for
memory: a read of what was written (`read_write_same`), a read elsewhere
(`read_write_disjoint`), and adjacent slices taken together (`read_add`,
`write_append`).
-/
import Mathlib

structure Buffer (α : Type*) where
  size : ℕ
  cell : ℕ → α

namespace Buffer

variable {α : Type*}

/-- A buffer that holds one value throughout. -/
def replicate (n : ℕ) (a : α) : Buffer α := ⟨n, fun _ => a⟩

/-- The `n` cells from `o` on, or as many of them as there are. -/
def read (b : Buffer α) (o n : ℕ) : List α :=
  (List.range (min n (b.size - o))).map fun i => b.cell (o + i)

/-- Overwrite the cells from `o` on. -/
def write (b : Buffer α) (o : ℕ) (xs : List α) : Buffer α :=
  { b with cell := fun i => if o ≤ i then xs[i - o]?.getD (b.cell i) else b.cell i }

@[simp] theorem size_write (b : Buffer α) (o : ℕ) (xs : List α) :
    (b.write o xs).size = b.size := rfl

theorem length_read (b : Buffer α) (o n : ℕ) :
    (b.read o n).length = min n (b.size - o) := by simp [read]

theorem length_read_of_le {b : Buffer α} {o n : ℕ} (h : o + n ≤ b.size) :
    (b.read o n).length = n := by
  rw [length_read]
  omega

theorem getElem?_read {b : Buffer α} {o n i : ℕ} (h : o + n ≤ b.size) (hi : i < n) :
    (b.read o n)[i]? = some (b.cell (o + i)) := by
  have hmin : min n (b.size - o) = n := by omega
  simp [read, hmin, hi]

theorem write_cell_of_lt {b : Buffer α} {o i : ℕ} {xs : List α} (h : i < o) :
    (b.write o xs).cell i = b.cell i := if_neg (by omega)

theorem write_cell_of_ge {b : Buffer α} {o i : ℕ} {xs : List α} (h : o + xs.length ≤ i) :
    (b.write o xs).cell i = b.cell i := by
  have hnone : xs[i - o]? = none := List.getElem?_eq_none (by omega)
  simp [write, hnone]

theorem write_cell_of_mem {b : Buffer α} {o i : ℕ} {xs : List α} {x : α}
    (h : xs[i]? = some x) : (b.write o xs).cell (o + i) = x := by
  simp [write, h]

/-- A read of exactly what was written. -/
theorem read_write_same {b : Buffer α} {o : ℕ} {xs : List α} (h : o + xs.length ≤ b.size) :
    (b.write o xs).read o xs.length = xs := by
  refine List.ext_getElem? fun i => ?_
  by_cases hi : i < xs.length
  · rw [getElem?_read (b := b.write o xs) h hi, write_cell_of_mem (List.getElem?_eq_getElem hi),
      List.getElem?_eq_getElem hi]
  · rw [List.getElem?_eq_none (by rw [length_read]; omega),
      List.getElem?_eq_none (by omega)]

/-- A read that does not meet the write. -/
theorem read_write_disjoint {b : Buffer α} {o o' n : ℕ} {xs : List α}
    (h : o' + n ≤ o ∨ o + xs.length ≤ o') : (b.write o xs).read o' n = b.read o' n := by
  refine List.map_congr_left fun i hi => ?_
  have hin : i < n := lt_of_lt_of_le (List.mem_range.mp hi) (min_le_left _ _)
  rcases h with h | h
  · exact write_cell_of_lt (by omega)
  · exact write_cell_of_ge (by omega)

/-- Adjacent slices read together. -/
theorem read_add {b : Buffer α} {o m n : ℕ} (h : o + m ≤ b.size) :
    b.read o (m + n) = b.read o m ++ b.read (o + m) n := by
  have hsplit : min (m + n) (b.size - o) = min m (b.size - o) + min n (b.size - (o + m)) := by
    omega
  have hm : min m (b.size - o) = m := by omega
  rw [read, hsplit, List.range_add, List.map_append, List.map_map, read, read]
  congr 1
  refine List.map_congr_left fun i _ => ?_
  rw [Function.comp_apply, hm, Nat.add_assoc]

/-- Adjacent slices written together. -/
theorem write_append (b : Buffer α) (o : ℕ) (xs ys : List α) :
    b.write o (xs ++ ys) = (b.write o xs).write (o + xs.length) ys := by
  simp only [write, mk.injEq, true_and]
  funext i
  by_cases h1 : o + xs.length ≤ i
  · have hsub : i - o - xs.length = i - (o + xs.length) := by omega
    rw [if_pos (by omega), if_pos h1, List.getElem?_append_right (by omega), hsub,
      if_pos (by omega), List.getElem?_eq_none (show xs.length ≤ i - o by omega)]
    rfl
  · rw [if_neg h1]
    by_cases h2 : o ≤ i
    · rw [if_pos h2, if_pos h2, List.getElem?_append_left (by omega)]
    · rw [if_neg h2, if_neg h2]

end Buffer
