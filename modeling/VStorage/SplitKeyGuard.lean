/-
`split_key_guard.py`: a key compressed and split over one cell per byte.

A cell keeps its byte in one of two pages and `bounce` copies it to the other.
The shared scheduler bounces cells in any order at any time; what matters to the
boxes is that this never shows (`reconstruct_bounceCell`) and that a fresh guard
gives its key back (`reconstruct_new`).
-/
import Mathlib
import VStorage.Primitives

/-- `PAGE_SIZE`. -/
def pageSize : ℕ := 4096

/-- An address and a length, as the watchdog registers them. -/
abbrev Region := ℕ × ℕ

/-- The live page of a cell: `_active`. -/
inductive Side
  | a
  | b
  deriving DecidableEq, Repr

/-! ### Cells -/

/-- `_RawCell`: the first byte of each page, and where the pages are mapped. -/
structure RawCell where
  pageA : UInt8
  pageB : UInt8
  active : Side
  addrA : ℕ
  addrB : ℕ
  closed : Bool
  deriving DecidableEq, Repr

namespace RawCell

def new (value : UInt8) (pages : ℕ × ℕ) : RawCell :=
  { pageA := value, pageB := 0, active := .a, addrA := pages.1, addrB := pages.2,
    closed := false }

def bounce (c : RawCell) : RawCell :=
  match c.active with
  | .a => { c with pageB := c.pageA, active := .b }
  | .b => { c with pageA := c.pageB, active := .a }

def read (c : RawCell) : Except PyError UInt8 :=
  if c.closed then .error .valueError
  else match c.active with
    | .a => .ok c.pageA
    | .b => .ok c.pageB

def regions (c : RawCell) : List Region := [(c.addrA, pageSize), (c.addrB, pageSize)]

def collapse (c : RawCell) : RawCell := { c with closed := true }

@[simp] theorem read_new (value : UInt8) (pages : ℕ × ℕ) : (new value pages).read = .ok value :=
  rfl

/-- The byte has already been copied when the live page changes. -/
@[simp] theorem read_bounce (c : RawCell) : c.bounce.read = c.read := by
  unfold bounce read
  cases c.active <;> rfl

@[simp] theorem regions_bounce (c : RawCell) : c.bounce.regions = c.regions := by
  unfold bounce
  cases c.active <;> rfl

end RawCell

/-! ### Guards -/

/-- `SplitKeyGuard`. -/
structure SplitKeyGuard where
  cells : List RawCell
  removed : Bool
  deriving DecidableEq, Repr

namespace SplitKeyGuard

/-- The constructor; `mmap i` are the two pages mapped for the `i`-th cell. -/
def new (P : Primitives) (key : Bytes) (mmap : ℕ → ℕ × ℕ) : SplitKeyGuard :=
  { cells := (P.compress 9 key).mapIdx fun i b => RawCell.new b (mmap i), removed := false }

def reconstruct (P : Primitives) (g : SplitKeyGuard) : Except PyError Bytes := do
  let compressed ← g.cells.mapM RawCell.read
  P.decompress compressed

/-- One service of a cell by `_GlobalCellScheduler._run`. -/
def bounceCell (g : SplitKeyGuard) (idx : ℕ) : SplitKeyGuard :=
  if g.removed then g else { g with cells := g.cells.modify idx RawCell.bounce }

def regions (g : SplitKeyGuard) : List Region := g.cells.flatMap RawCell.regions

def collapse (g : SplitKeyGuard) : SplitKeyGuard :=
  { cells := g.cells.map RawCell.collapse, removed := true }

variable (P : Primitives)

theorem reconstruct_new (key : Bytes) (mmap : ℕ → ℕ × ℕ) :
    (new P key mmap).reconstruct P = .ok key := by
  have hread : ((P.compress 9 key).mapIdx fun i b => RawCell.new b (mmap i)).mapM RawCell.read
      = .ok (P.compress 9 key) := by
    rw [mapM_ok (g := RawCell.pageA)]
    · congr 1
      apply List.ext_getElem <;> simp [RawCell.new]
    · intro c hc
      obtain ⟨i, hi, rfl⟩ := List.mem_iff_getElem.mp hc
      simp [RawCell.new, RawCell.read]
  rw [reconstruct, new, hread, ok_bind, P.decompress_compress]

theorem mapM_read_modify (cells : List RawCell) (idx : ℕ) :
    (cells.modify idx RawCell.bounce).mapM RawCell.read = cells.mapM RawCell.read := by
  induction cells generalizing idx with
  | nil => simp
  | cons c cells ih =>
    cases idx with
    | zero => simp [List.mapM_cons]
    | succ idx => simp [List.mapM_cons, ih]

/-- Bouncing a cell never changes the key. -/
@[simp] theorem reconstruct_bounceCell (g : SplitKeyGuard) (idx : ℕ) :
    (g.bounceCell idx).reconstruct P = g.reconstruct P := by
  unfold bounceCell
  split
  · rfl
  · rw [reconstruct, reconstruct, mapM_read_modify]

@[simp] theorem removed_bounceCell (g : SplitKeyGuard) (idx : ℕ) :
    (g.bounceCell idx).removed = g.removed := by
  unfold bounceCell
  split <;> rfl

/-- Bouncing a cell never moves a page. -/
@[simp] theorem regions_bounceCell (g : SplitKeyGuard) (idx : ℕ) :
    (g.bounceCell idx).regions = g.regions := by
  unfold bounceCell
  split
  · rfl
  · rename_i h
    clear h
    rw [regions, regions]
    generalize g.cells = cells
    induction cells generalizing idx with
    | nil => simp
    | cons c cells ih =>
      cases idx with
      | zero => simp
      | succ idx => simp [ih]

end SplitKeyGuard
