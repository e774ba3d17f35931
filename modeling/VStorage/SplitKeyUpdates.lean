/-
`split_key_guard.py`: a guard whose key is replaced while its cells are being bounced.

Bouncing, reading and rewriting all happen under the lock of the guard, so a run is a list
of calls.  An update writes the live page of each cell only: the other page goes on holding
a byte of an older key until the cell is bounced.

* `Holds`: the live pages are the compressed key, whatever the others are.
* `step_holds`: every call keeps this, for the key of the last update that succeeded.
* `reconstruct_lastKey`: so `reconstruct` returns that key, after any calls.
-/
import Mathlib
import VStorage.Runs
import VStorage.SplitKeyGuard

namespace RawCell

def write (c : RawCell) (value : UInt8) : Except PyError RawCell :=
  if c.closed then .error .valueError
  else match c.active with
    | .a => .ok { c with pageA := value }
    | .b => .ok { c with pageB := value }

/-- The byte on the live page. -/
def live (c : RawCell) : UInt8 :=
  match c.active with
  | .a => c.pageA
  | .b => c.pageB

theorem read_live {c : RawCell} (hopen : c.closed = false) : c.read = .ok c.live := by
  unfold read live
  rw [if_neg (by simp [hopen])]
  cases c.active with
  | a => rfl
  | b => rfl

/-- The live byte is copied before the other page becomes the live one. -/
@[simp] theorem live_bounce (c : RawCell) : c.bounce.live = c.live := by
  unfold bounce live
  cases c.active with
  | a => rfl
  | b => rfl

@[simp] theorem closed_bounce (c : RawCell) : c.bounce.closed = c.closed := by
  unfold bounce
  cases c.active with
  | a => rfl
  | b => rfl

theorem write_open {c : RawCell} (hopen : c.closed = false) (value : UInt8) :
    ∃ c', c.write value = .ok c' ∧ c'.live = value ∧ c'.closed = false := by
  unfold write
  rw [if_neg (by simp [hopen])]
  cases hactive : c.active with
  | a => exact ⟨_, rfl, by simp [live], hopen⟩
  | b => exact ⟨_, rfl, by simp [live], hopen⟩

end RawCell

namespace SplitKeyGuard

/-! ### Calls -/

/-- `for cell, b in zip(self._cells, compressed): cell.write(b)`: the cells afterwards, and
what the loop raises. -/
def writeCells : List RawCell → Bytes → List RawCell × Except PyError Unit
  | cell :: cells, b :: compressed =>
    match cell.write b with
    | .error e => (cell :: cells, .error e)
    | .ok cell =>
      let (cells, result) := writeCells cells compressed
      (cell :: cells, result)
  | cells, _ => (cells, .ok ())

def update (P : Primitives) (g : SplitKeyGuard) (newKey : Bytes) :
    SplitKeyGuard × Except PyError Bool :=
  let compressed := P.compress 9 newKey
  if compressed.length ≠ g.cells.length then (g, .ok false)
  else
    let (cells, result) := writeCells g.cells compressed
    ({ g with cells }, result.map fun _ => true)

/-- A call that takes the lock, and what it returns. -/
inductive Call
  | bounce (idx : ℕ)
  | reconstruct (returned : Except PyError Bytes)
  | update (newKey : Bytes) (returned : Except PyError Bool)

def Step (P : Primitives) (g : SplitKeyGuard) (call : Call) (g' : SplitKeyGuard) : Prop :=
  match call with
  | .bounce idx => g' = g.bounceCell idx
  | .reconstruct returned => g' = g ∧ returned = g.reconstruct P
  | .update newKey returned => (g', returned) = g.update P newKey

/-- The key after one more call. -/
def nextKey (key : Bytes) : Call → Bytes
  | .update newKey (.ok true) => newKey
  | _ => key

/-- The key of the last update that returned `True`, or of the constructor. -/
def lastKey (key : Bytes) (calls : List Call) : Bytes := calls.foldl nextKey key

/-- The live pages hold the compressed key. -/
structure Holds (P : Primitives) (key : Bytes) (g : SplitKeyGuard) : Prop where
  isOpen : ∀ c ∈ g.cells, c.closed = false
  live : g.cells.map RawCell.live = P.compress 9 key

variable (P : Primitives)

theorem lastKey_concat (key : Bytes) (calls : List Call) (call : Call) :
    lastKey key (calls ++ [call]) = nextKey (lastKey key calls) call := by
  simp [lastKey]

/-! ### What each call does to the live pages -/

variable {P}

theorem Holds.reconstruct {key : Bytes} {g : SplitKeyGuard} (h : g.Holds P key) :
    g.reconstruct P = .ok key := by
  have hread : g.cells.mapM RawCell.read = .ok (g.cells.map RawCell.live) :=
    mapM_ok fun c hc => RawCell.read_live (h.isOpen c hc)
  rw [SplitKeyGuard.reconstruct, hread, ok_bind, h.live, P.decompress_compress]

theorem holds_new (key : Bytes) (mmap : ℕ → ℕ × ℕ) : (new P key mmap).Holds P key where
  isOpen c hc := by
    obtain ⟨i, hi, rfl⟩ := List.mem_mapIdx.mp hc
    rfl
  live := by
    apply List.ext_getElem
    · simp [new]
    · intro i hi hi'
      simp [new, RawCell.new, RawCell.live]

/-- A bounce changes which pages are live, and what is on the others. -/
theorem holds_bounceCell {key : Bytes} {g : SplitKeyGuard} (h : g.Holds P key) (idx : ℕ) :
    (g.bounceCell idx).Holds P key := by
  unfold bounceCell
  split
  · exact h
  constructor
  · intro c hc
    obtain ⟨i, hi⟩ := List.mem_iff_getElem?.mp hc
    rw [List.getElem?_modify] at hi
    obtain ⟨c₀, hc₀, rfl⟩ := Option.map_eq_some_iff.mp hi
    have hopen := h.isOpen c₀ (List.mem_of_getElem? hc₀)
    split
    · rw [RawCell.closed_bounce, hopen]
    · exact hopen
  · have hsame : (g.cells.modify idx RawCell.bounce).map RawCell.live
        = g.cells.map RawCell.live := by
      apply List.ext_getElem?
      intro i
      rw [List.getElem?_map, List.getElem?_map, List.getElem?_modify, Option.map_eq_map,
        Option.map_map]
      congr 1
      funext c
      rw [Function.comp_apply]
      split
      · exact c.live_bounce
      · rfl
    exact hsame.trans h.live

/-- As many bytes as there are cells: the live pages become these bytes. -/
theorem writeCells_open {cells : List RawCell} (hopen : ∀ c ∈ cells, c.closed = false)
    {compressed : Bytes} (hlen : compressed.length = cells.length) :
    ∃ cells', writeCells cells compressed = (cells', .ok ()) ∧
      (∀ c ∈ cells', c.closed = false) ∧ cells'.map RawCell.live = compressed := by
  induction cells generalizing compressed with
  | nil =>
    obtain rfl := List.eq_nil_of_length_eq_zero hlen
    exact ⟨[], rfl, nofun, rfl⟩
  | cons cell cells ih =>
    cases compressed with
    | nil => simp at hlen
    | cons b compressed =>
      obtain ⟨hcell, hcells⟩ := List.forall_mem_cons.mp hopen
      obtain ⟨cell', hwrite, hlive, hopen'⟩ := RawCell.write_open hcell b
      obtain ⟨cells', hrest, hall, hmap⟩ := ih hcells (by simpa using hlen)
      refine ⟨cell' :: cells', ?_, List.forall_mem_cons.mpr ⟨hopen', hall⟩, ?_⟩
      · rw [writeCells, hwrite]
        simp only [hrest]
      · rw [List.map_cons, hlive, hmap]

theorem update_refused {g : SplitKeyGuard} {newKey : Bytes}
    (hlen : (P.compress 9 newKey).length ≠ g.cells.length) : g.update P newKey = (g, .ok false) :=
  if_pos hlen

theorem update_written {key newKey : Bytes} {g : SplitKeyGuard} (h : g.Holds P key)
    (hlen : (P.compress 9 newKey).length = g.cells.length) :
    ∃ g', g.update P newKey = (g', .ok true) ∧ g'.Holds P newKey := by
  obtain ⟨cells, hwrite, hopen, hlive⟩ := writeCells_open h.isOpen hlen
  refine ⟨{ g with cells }, ?_, ⟨hopen, hlive⟩⟩
  rw [update, if_neg (not_not.mpr hlen), hwrite]
  rfl

/-! ### Runs -/

/-- Every call keeps the live pages equal to the compressed key, for the key after the call. -/
theorem step_holds {key : Bytes} {g g' : SplitKeyGuard} {call : Call} (h : g.Holds P key)
    (hstep : Step P g call g') : g'.Holds P (nextKey key call) := by
  cases call with
  | bounce idx =>
    obtain rfl : g' = g.bounceCell idx := hstep
    exact holds_bounceCell h idx
  | reconstruct returned =>
    obtain ⟨rfl, -⟩ := hstep
    exact h
  | update newKey returned =>
    have hupdate : (g', returned) = g.update P newKey := hstep
    by_cases hlen : (P.compress 9 newKey).length = g.cells.length
    · obtain ⟨g'', hwritten, hnew⟩ := update_written h hlen
      rw [hwritten] at hupdate
      obtain ⟨rfl, rfl⟩ := Prod.mk.inj hupdate
      exact hnew
    · rw [update_refused hlen] at hupdate
      obtain ⟨rfl, rfl⟩ := Prod.mk.inj hupdate
      exact h

theorem run_holds {key : Bytes} {mmap : ℕ → ℕ × ℕ} {calls : List Call} {g : SplitKeyGuard}
    (hrun : Run (Step P) (new P key mmap) calls g) : g.Holds P (lastKey key calls) := by
  refine hrun.history (I := fun calls g => g.Holds P (lastKey key calls)) (holds_new key mmap) ?_
  intro calls g call g' h hstep
  rw [lastKey_concat]
  exact step_holds h hstep

/-- **Split keys.**  After any calls `reconstruct` returns the key of the last update that
returned `True`, or of the constructor; and an update whose key compresses to another length
returns `False` and changes no page, and so not the key. -/
theorem reconstruct_lastKey {key : Bytes} {mmap : ℕ → ℕ × ℕ} {calls : List Call}
    {g : SplitKeyGuard} (hrun : Run (Step P) (new P key mmap) calls g) :
    (∀ returned g', Step P g (.reconstruct returned) g' →
      returned = .ok (lastKey key calls)) ∧
    (∀ newKey returned g', Step P g (.update newKey returned) g' →
      (P.compress 9 newKey).length ≠ g.cells.length →
      returned = .ok false ∧ g' = g ∧ g'.reconstruct P = .ok (lastKey key calls)) := by
  have hholds := run_holds hrun
  constructor
  · rintro returned g' ⟨-, rfl⟩
    exact hholds.reconstruct
  · intro newKey returned g' hupdate hlen
    have hrefused : (g', returned) = g.update P newKey := hupdate
    rw [update_refused hlen] at hrefused
    obtain ⟨rfl, rfl⟩ := Prod.mk.inj hrefused
    exact ⟨rfl, rfl, hholds.reconstruct⟩

/-- A cell bounced in between two updates, the second of which does not fit. -/
theorem reconstruct_lastKey_sample :
    let g : SplitKeyGuard := new Primitives.sample [1, 2] fun i => (2 * i, 2 * i + 1)
    let g₁ := (g.bounceCell 0).update Primitives.sample [3, 4]
    let g₂ := (g₁.1.bounceCell 1).update Primitives.sample [5]
    g₁.2 = .ok true ∧ g₂.2 = .ok false ∧
      g₂.1.reconstruct Primitives.sample = .ok [3, 4] := by
  intro g g₁ g₂
  have hrun : Run (Step Primitives.sample) g
      [.bounce 0, .update [3, 4] (.ok true), .bounce 1] (g₁.1.bounceCell 1) :=
    Run.snoc (Run.snoc (Run.single rfl) rfl) rfl
  have hlast := reconstruct_lastKey hrun
  obtain ⟨hreturned, -, hkey⟩ := hlast.2 [5] g₂.2 g₂.1 rfl (by decide)
  exact ⟨rfl, hreturned, hkey⟩

end SplitKeyGuard
