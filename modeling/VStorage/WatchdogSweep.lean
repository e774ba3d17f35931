/-
`_watch_process` against the cells that it wipes.

The watchdog is a process of its own: it writes zeros over one entry of the table after the
other, straight into the memory of the target, while the target goes on.  A cell that bounces
meanwhile reads its live page, writes the byte to the other page and only then changes
`_active`; whatever of these two pages is wiped when the byte is elsewhere makes no difference.

* `bounce_alone`: the three steps of a worker make up `bounce`.
* `missed_iff`: a sweep that writes both pages of a cell misses it exactly when, at each of
  the two writes, the byte was on the other page or in the middle of a move.
* `stopped_sweep`: when the workers of a guard stand still during the sweep, it misses one cell
  of the guard at the most, the one whose byte has been read and not been written.
-/
import Mathlib
import VStorage.Runs
import VStorage.SplitKeyGuard

/-! ### Pages -/

namespace Side

def other : Side → Side
  | .a => .b
  | .b => .a

def flips (side : Side) : ℕ → Side
  | 0 => side
  | n + 1 => (side.flips n).other

end Side

/-- The address lies in the region. -/
def Region.Inside (region : Region) (addr : ℕ) : Prop :=
  region.1 ≤ addr ∧ addr < region.1 + region.2

instance (region : Region) (addr : ℕ) : Decidable (region.Inside addr) :=
  inferInstanceAs (Decidable (_ ∧ _))

namespace RawCell

def addr (c : RawCell) : Side → ℕ
  | .a => c.addrA
  | .b => c.addrB

def page (c : RawCell) : Side → UInt8
  | .a => c.pageA
  | .b => c.pageB

def setPage (c : RawCell) (value : UInt8) : Side → RawCell
  | .a => { c with pageA := value }
  | .b => { c with pageB := value }

/-- What is left after `f.write(bytes(length))` at the address. -/
def wipe (c : RawCell) (region : Region) : RawCell :=
  { c with
    pageA := if region.Inside c.addrA then 0 else c.pageA
    pageB := if region.Inside c.addrB then 0 else c.pageB }

theorem page_wipe (c : RawCell) (region : Region) (side : Side) :
    (c.wipe region).page side = if region.Inside (c.addr side) then 0 else c.page side := by
  cases side <;> rfl

@[simp] theorem addr_wipe (c : RawCell) (region : Region) : (c.wipe region).addr = c.addr := by
  funext side
  cases side <;> rfl

@[simp] theorem active_wipe (c : RawCell) (region : Region) :
    (c.wipe region).active = c.active := rfl

@[simp] theorem page_setPage (c : RawCell) (value : UInt8) (side : Side) :
    (c.setPage value side).page side = value := by
  cases side <;> rfl

@[simp] theorem addr_setPage (c : RawCell) (value : UInt8) (side : Side) :
    (c.setPage value side).addr = c.addr := by
  funext s
  cases side <;> cases s <;> rfl

@[simp] theorem active_setPage (c : RawCell) (value : UInt8) (side : Side) :
    (c.setPage value side).active = c.active := by
  cases side <;> rfl

/-- The three steps of `bounce`. -/
theorem bounce_eq (c : RawCell) :
    c.bounce = { c.setPage (c.page c.active) c.active.other with active := c.active.other } := by
  unfold bounce
  cases hactive : c.active <;> rfl

end RawCell

namespace WatchdogSweep

/-! ### The system -/

/-- Where a worker is in `bounce` of a cell, whose guard it has locked. -/
inductive Service
  | loaded (idx : ℕ) (value : UInt8)
  | stored (idx : ℕ)

/-- A guard of the target, and what the worker that has its `_lock` is doing. -/
structure Guard where
  guard : SplitKeyGuard
  service : Option Service

/-- Where `_watch_process` is. -/
inductive Watcher
  | polling
  | opening (n : ℕ)
  | sweeping (i n : ℕ)
  | addressed (i n addr : ℕ)
  | located (i n : ℕ) (region : Region)
  | flagging
  | killing
  | ended

/-- The guards in the target's memory, the shared array `regions` and its count, the watchdog,
`detected_flag`, and whether the target is gone. -/
structure State where
  guards : List Guard
  entries : ℕ → ℕ
  regionCount : ℕ
  watcher : Watcher
  detected : Bool
  gone : Bool

def State.region (s : State) (i : ℕ) : Region := (s.entries (2 * i), s.entries (2 * i + 1))

def State.setGuard (s : State) (g : ℕ) (gd : Guard) : State :=
  { s with guards := s.guards.set g gd }

/-- Replace one cell, and say where its worker is. -/
def Guard.setCell (gd : Guard) (idx : ℕ) (c : RawCell) (service : Option Service) : Guard :=
  { guard := { gd.guard with cells := gd.guard.cells.set idx c }, service }

def Guard.wipe (region : Region) (gd : Guard) : Guard :=
  { gd with guard := { gd.guard with cells := gd.guard.cells.map (·.wipe region) } }

inductive Event
  | wiped (i : ℕ) (region : Region)
  | failed (i : ℕ)
  | moved (g idx : ℕ)
  | stored (x value : ℕ)
  | quiet

/-- One step of the target, as long as it is there, or of the watchdog.  In the target a worker
reads, writes and switches the cell that it bounces, guards come and go, and the table is written
to, one value at a time. -/
inductive Step (killTarget : Bool) : State → Event → State → Prop
  | load {s : State} {g idx : ℕ} {gd : Guard} {c : RawCell} : s.gone = false →
      s.guards[g]? = some gd → gd.service = none → gd.guard.removed = false →
      gd.guard.cells[idx]? = some c →
      Step killTarget s (.moved g idx)
        (s.setGuard g { gd with service := some (.loaded idx (c.page c.active)) })
  | store {s : State} {g idx : ℕ} {gd : Guard} {c : RawCell} {value : UInt8} : s.gone = false →
      s.guards[g]? = some gd → gd.service = some (.loaded idx value) →
      gd.guard.cells[idx]? = some c →
      Step killTarget s (.moved g idx)
        (s.setGuard g (gd.setCell idx (c.setPage value c.active.other) (some (.stored idx))))
  | switch {s : State} {g idx : ℕ} {gd : Guard} {c : RawCell} : s.gone = false →
      s.guards[g]? = some gd → gd.service = some (.stored idx) →
      gd.guard.cells[idx]? = some c →
      Step killTarget s (.moved g idx)
        (s.setGuard g (gd.setCell idx { c with active := c.active.other } none))
  | newGuard {s : State} {guard : SplitKeyGuard} : s.gone = false → guard.removed = false →
      Step killTarget s .quiet { s with guards := s.guards ++ [⟨guard, none⟩] }
  | collapse {s : State} {g : ℕ} {gd : Guard} : s.gone = false → s.guards[g]? = some gd →
      gd.service = none →
      Step killTarget s .quiet (s.setGuard g { gd with guard := gd.guard.collapse })
  | entry {s : State} {x value : ℕ} : s.gone = false →
      Step killTarget s (.stored x value) { s with entries := Function.update s.entries x value }
  | count {s : State} {n : ℕ} : s.gone = false → s.regionCount ≤ n →
      Step killTarget s .quiet { s with regionCount := n }
  | exit {s : State} : s.gone = false → Step killTarget s .quiet { s with gone := true }
  -- `_tracer_pid_of` is -1 when the target is gone, and not 0 when somebody traces it
  | lost {s : State} : s.watcher = .polling → s.gone = true →
      Step killTarget s .quiet { s with watcher := .ended }
  | detect {s : State} : s.watcher = .polling →
      Step killTarget s .quiet { s with watcher := .opening s.regionCount }
  | unopened {s : State} {n : ℕ} : s.watcher = .opening n →
      Step killTarget s .quiet { s with watcher := .flagging }
  | opened {s : State} {n : ℕ} : s.watcher = .opening n →
      Step killTarget s .quiet { s with watcher := .sweeping 0 n }
  | address {s : State} {i n : ℕ} : s.watcher = .sweeping i n → i < n →
      Step killTarget s .quiet { s with watcher := .addressed i n (s.entries (2 * i)) }
  | length {s : State} {i n addr : ℕ} : s.watcher = .addressed i n addr →
      Step killTarget s .quiet { s with watcher := .located i n (addr, s.entries (2 * i + 1)) }
  | wipe {s : State} {i n : ℕ} {region : Region} : s.watcher = .located i n region →
      Step killTarget s (.wiped i region)
        { s with guards := s.guards.map (·.wipe region), watcher := .sweeping (i + 1) n }
  | fail {s : State} {i n : ℕ} {region : Region} : s.watcher = .located i n region →
      Step killTarget s (.failed i) { s with watcher := .sweeping (i + 1) n }
  | done {s : State} {n : ℕ} : s.watcher = .sweeping n n →
      Step killTarget s .quiet { s with watcher := .flagging }
  | flag {s : State} : s.watcher = .flagging →
      Step killTarget s .quiet { s with watcher := .killing, detected := true }
  | kill {s : State} : s.watcher = .killing →
      Step killTarget s .quiet { s with watcher := .ended, gone := s.gone || killTarget }

/-- A worker that nobody interrupts bounces the cell. -/
theorem bounce_alone (killTarget : Bool) {s : State} {g idx : ℕ} {gd : Guard} {c : RawCell}
    (hthere : s.gone = false) (hgd : s.guards[g]? = some gd) (hservice : gd.service = none)
    (hremoved : gd.guard.removed = false) (hcell : gd.guard.cells[idx]? = some c) :
    Run (Step killTarget) s [.moved g idx, .moved g idx, .moved g idx]
      (s.setGuard g { gd with guard := gd.guard.bounceCell idx }) := by
  have hget : ∀ gd', (s.setGuard g gd').guards[g]? = some gd' := fun _ =>
    List.getElem?_set_self (List.getElem?_eq_some_iff.mp hgd).1
  have hset : ∀ gd' gd'', (s.setGuard g gd').setGuard g gd'' = s.setGuard g gd'' := fun _ _ => by
    rw [State.setGuard, State.setGuard, State.setGuard, List.set_set]
  have hidx := (List.getElem?_eq_some_iff.mp hcell).1
  -- read, write, switch
  let gd₁ : Guard := { gd with service := some (.loaded idx (c.page c.active)) }
  let gd₂ : Guard := gd₁.setCell idx (c.setPage (c.page c.active) c.active.other)
    (some (.stored idx))
  let gd₃ : Guard := gd₂.setCell idx c.bounce none
  have hload : Step killTarget s (.moved g idx) (s.setGuard g gd₁) :=
    .load hthere hgd hservice hremoved hcell
  have hstore : Step killTarget (s.setGuard g gd₁) (.moved g idx)
      ((s.setGuard g gd₁).setGuard g gd₂) := .store hthere (hget gd₁) rfl hcell
  have hswitch : Step killTarget (s.setGuard g gd₂) (.moved g idx)
      ((s.setGuard g gd₂).setGuard g gd₃) := by
    have hcell₂ : gd₂.guard.cells[idx]? = some (c.setPage (c.page c.active) c.active.other) :=
      List.getElem?_set_self hidx
    have hservice₂ : gd₂.service = some (.stored idx) := rfl
    have hstep : Step killTarget (s.setGuard g gd₂) (.moved g idx) _ :=
      .switch hthere (hget gd₂) hservice₂ hcell₂
    rw [RawCell.active_setPage, ← RawCell.bounce_eq] at hstep
    exact hstep
  rw [hset] at hstore hswitch
  have hend : gd₃ = { gd with guard := gd.guard.bounceCell idx } := by
    have hcells : (gd.guard.cells.set idx (c.setPage (c.page c.active) c.active.other)).set idx
        c.bounce = gd.guard.cells.modify idx RawCell.bounce := by
      rw [List.set_set, List.modify_eq_set_getElem?, hcell]
      rfl
    rw [SplitKeyGuard.bounceCell, if_neg (by rw [hremoved]; exact Bool.false_ne_true), hservice,
      ← hcells]
    rfl
  exact hend ▸ ((Run.single hload).snoc hstore).snoc hswitch

/-! ### Where the byte of a cell is -/

/-- How far the bounce of a cell has got. -/
def Guard.stage (gd : Guard) (idx : ℕ) : ℕ :=
  match gd.service with
  | some (.loaded j _) => if j = idx then 1 else 0
  | some (.stored j) => if j = idx then 2 else 0
  | none => 0

/-- The byte that the cell has when its bounce is over. -/
def Guard.settled (gd : Guard) (idx : ℕ) (c : RawCell) : UInt8 :=
  match gd.service with
  | some (.loaded j value) => if j = idx then value else c.page c.active
  | some (.stored j) => if j = idx then c.page c.active.other else c.page c.active
  | none => c.page c.active

/-- The page that it will come from, `m` steps of bounces later. -/
def pivot (c : RawCell) (m : ℕ) : Option Side :=
  if m % 3 = 1 then none else some (c.active.flips ((m + 1) / 3))

def Event.isMove (g idx : ℕ) : Event → Bool
  | .moved g' idx' => g' = g ∧ idx' = idx
  | _ => false

/-- How many steps of its bounces a cell has taken. -/
def moves (g idx : ℕ) (events : List Event) : ℕ := events.countP (Event.isMove g idx)

/-- A write of the watchdog to the page that the byte is on. -/
def Hit (c : RawCell) (g idx : ℕ) (events : List Event) : Prop :=
  ∃ pre i region post side, events = pre ++ .wiped i region :: post ∧
    pivot c (moves g idx pre) = some side ∧ region.Inside (c.addr side)

/-- The cell that was `c` has taken `m` steps. -/
structure Tracks (c : RawCell) (idx m : ℕ) (gd : Guard) (c' : RawCell) : Prop where
  cell : gd.guard.cells[idx]? = some c'
  addr : c'.addr = c.addr
  active : c'.active = c.active.flips (m / 3)
  stage : gd.stage idx = m % 3

theorem moves_concat (g idx : ℕ) (events : List Event) (event : Event) :
    moves g idx (events ++ [event])
      = moves g idx events + if event.isMove g idx then 1 else 0 := by
  rw [moves, List.countP_append, List.countP_singleton]
  rfl

theorem hit_concat {c : RawCell} {g idx : ℕ} {events : List Event} {event : Event} :
    Hit c g idx (events ++ [event]) ↔ Hit c g idx events ∨ ∃ i region side,
      event = .wiped i region ∧ pivot c (moves g idx events) = some side ∧
        region.Inside (c.addr side) := by
  constructor
  · rintro ⟨pre, i, region, post, side, hsplit, hpivot, hinside⟩
    rcases List.eq_nil_or_concat post with rfl | ⟨post, last, rfl⟩
    · obtain ⟨rfl, hlast⟩ := List.append_inj' hsplit rfl
      exact Or.inr ⟨i, region, side, List.singleton_inj.mp hlast, hpivot, hinside⟩
    · rw [List.concat_eq_append, ← List.cons_append, ← List.append_assoc] at hsplit
      exact Or.inl ⟨pre, i, region, post, side, (List.append_inj' hsplit rfl).1, hpivot, hinside⟩
  · rintro (⟨pre, i, region, post, side, rfl, hpivot, hinside⟩ |
      ⟨i, region, side, rfl, hpivot, hinside⟩)
    · exact ⟨pre, i, region, post ++ [event], side, by simp, hpivot, hinside⟩
    · exact ⟨events, i, region, [], side, rfl, hpivot, hinside⟩

/-- A cell is not in service, or its byte has been read, or written. -/
theorem Guard.stage_cases (gd : Guard) (idx : ℕ) :
    gd.stage idx = 0 ∧ (∀ c : RawCell, gd.settled idx c = c.page c.active) ∨
      (∃ value, gd.service = some (.loaded idx value)) ∨ gd.service = some (.stored idx) := by
  unfold Guard.stage Guard.settled
  cases hservice : gd.service with
  | none => exact Or.inl ⟨rfl, fun _ => rfl⟩
  | some service =>
    cases service with
    | loaded j value =>
      by_cases hj : j = idx
      · exact Or.inr (Or.inl ⟨value, by rw [hj]⟩)
      · exact Or.inl ⟨if_neg hj, fun _ => if_neg hj⟩
    | stored j =>
      by_cases hj : j = idx
      · exact Or.inr (Or.inr (by rw [hj]))
      · exact Or.inl ⟨if_neg hj, fun _ => if_neg hj⟩

theorem Guard.loaded {gd : Guard} {idx : ℕ} {value : UInt8}
    (h : gd.service = some (.loaded idx value)) :
    gd.stage idx = 1 ∧ ∀ c : RawCell, gd.settled idx c = value := by
  unfold Guard.stage Guard.settled
  rw [h]
  exact ⟨if_pos rfl, fun _ => if_pos rfl⟩

theorem Guard.stored {gd : Guard} {idx : ℕ} (h : gd.service = some (.stored idx)) :
    gd.stage idx = 2 ∧ ∀ c : RawCell, gd.settled idx c = c.page c.active.other := by
  unfold Guard.stage Guard.settled
  rw [h]
  exact ⟨if_pos rfl, fun _ => if_pos rfl⟩

theorem Guard.unserved {gd : Guard} (h : gd.service = none) (idx : ℕ) :
    gd.stage idx = 0 ∧ ∀ c : RawCell, gd.settled idx c = c.page c.active := by
  unfold Guard.stage Guard.settled
  rw [h]
  exact ⟨rfl, fun _ => rfl⟩

theorem Guard.settled_of_stage {gd : Guard} {idx : ℕ} (h : gd.stage idx = 0) (c : RawCell) :
    gd.settled idx c = c.page c.active := by
  obtain ⟨-, hsettled⟩ | ⟨value, hloaded⟩ | hstored := gd.stage_cases idx
  · exact hsettled c
  · exact nomatch (Guard.loaded hloaded).1.symm.trans h
  · exact nomatch (Guard.stored hstored).1.symm.trans h

section Steps

variable {c c' : RawCell} {g idx m : ℕ} {gd gd' : Guard} {events : List Event} {event : Event}

theorem Tracks.load (h : Tracks c idx m gd c') (hservice : gd.service = none)
    (hservice' : gd'.service = some (.loaded idx (c'.page c'.active)))
    (hcells : gd'.guard.cells = gd.guard.cells) :
    Tracks c idx (m + 1) gd' c' ∧ gd'.settled idx c' = gd.settled idx c' := by
  obtain ⟨hstage, hsettled⟩ := Guard.unserved hservice idx
  obtain ⟨hstage', hsettled'⟩ := Guard.loaded hservice'
  have hm := h.stage
  rw [hstage] at hm
  refine ⟨⟨by rw [hcells, h.cell], h.addr, ?_, ?_⟩, by rw [hsettled, hsettled']⟩
  · rw [h.active, show (m + 1) / 3 = m / 3 by omega]
  · rw [hstage']
    omega

theorem Tracks.store (h : Tracks c idx m gd c') {value : UInt8}
    (hservice : gd.service = some (.loaded idx value)) :
    Tracks c idx (m + 1) (gd.setCell idx (c'.setPage value c'.active.other) (some (.stored idx)))
        (c'.setPage value c'.active.other) ∧
      (gd.setCell idx (c'.setPage value c'.active.other) (some (.stored idx))).settled idx
        (c'.setPage value c'.active.other) = gd.settled idx c' := by
  obtain ⟨hstage, hsettled⟩ := Guard.loaded hservice
  have hservice' : (gd.setCell idx (c'.setPage value c'.active.other)
      (some (.stored idx))).service = some (.stored idx) := rfl
  obtain ⟨hstage', hsettled'⟩ := Guard.stored hservice'
  have hm := h.stage
  rw [hstage] at hm
  refine ⟨⟨?_, ?_, ?_, ?_⟩, ?_⟩
  · exact List.getElem?_set_self (List.getElem?_eq_some_iff.mp h.cell).1
  · rw [RawCell.addr_setPage, h.addr]
  · rw [RawCell.active_setPage, h.active, show (m + 1) / 3 = m / 3 by omega]
  · rw [hstage']
    omega
  · rw [hsettled, hsettled', RawCell.active_setPage, RawCell.page_setPage]

theorem Tracks.switch (h : Tracks c idx m gd c') (hservice : gd.service = some (.stored idx)) :
    Tracks c idx (m + 1) (gd.setCell idx { c' with active := c'.active.other } none)
        { c' with active := c'.active.other } ∧
      (gd.setCell idx { c' with active := c'.active.other } none).settled idx
        { c' with active := c'.active.other } = gd.settled idx c' := by
  obtain ⟨hstage, hsettled⟩ := Guard.stored hservice
  have hservice' : (gd.setCell idx { c' with active := c'.active.other } none).service = none := rfl
  obtain ⟨hstage', hsettled'⟩ := Guard.unserved hservice' idx
  have hm := h.stage
  rw [hstage] at hm
  have haddr : ({ c' with active := c'.active.other } : RawCell).addr = c'.addr := by
    funext side
    cases side <;> rfl
  refine ⟨⟨?_, haddr.trans h.addr, ?_, ?_⟩, ?_⟩
  · exact List.getElem?_set_self (List.getElem?_eq_some_iff.mp h.cell).1
  · show c'.active.other = _
    rw [h.active, show (m + 1) / 3 = m / 3 + 1 by omega]
    rfl
  · rw [hstage']
    omega
  · rw [hsettled, hsettled']
    cases c'.active <;> rfl

/-- Something happens to another cell. -/
theorem Tracks.elsewhere (h : Tracks c idx m gd c')
    (hcell : gd'.guard.cells[idx]? = gd.guard.cells[idx]?) (hstage : gd.stage idx = 0)
    (hstage' : gd'.stage idx = 0) :
    Tracks c idx m gd' c' ∧ gd'.settled idx c' = gd.settled idx c' :=
  ⟨⟨hcell.trans h.cell, h.addr, h.active, hstage'.trans (hstage.symm.trans h.stage)⟩, by
    rw [Guard.settled_of_stage hstage, Guard.settled_of_stage hstage']⟩

theorem Tracks.collapse (h : Tracks c idx m gd c') (hservice : gd.service = none) :
    Tracks c idx m { gd with guard := gd.guard.collapse } c'.collapse ∧
      ({ gd with guard := gd.guard.collapse } : Guard).settled idx c'.collapse
        = gd.settled idx c' := by
  have hcell : gd.guard.collapse.cells[idx]? = some c'.collapse := by
    rw [SplitKeyGuard.collapse, List.getElem?_map, h.cell]
    rfl
  have haddr : c'.collapse.addr = c'.addr := by
    funext side
    cases side <;> rfl
  have hservice' : ({ gd with guard := gd.guard.collapse } : Guard).service = none := hservice
  refine ⟨⟨hcell, haddr.trans h.addr, h.active, h.stage⟩, ?_⟩
  rw [(Guard.unserved hservice idx).2, (Guard.unserved hservice' idx).2]
  show c'.collapse.page c'.active = c'.page c'.active
  cases c'.active <;> rfl

theorem Tracks.wipe (h : Tracks c idx m gd c') (region : Region) :
    Tracks c idx m (gd.wipe region) (c'.wipe region) ∧
      ((∃ side, pivot c m = some side ∧ region.Inside (c.addr side)) →
        (gd.wipe region).settled idx (c'.wipe region) = 0) ∧
      ((¬ ∃ side, pivot c m = some side ∧ region.Inside (c.addr side)) →
        (gd.wipe region).settled idx (c'.wipe region) = gd.settled idx c') := by
  have hcell : (gd.wipe region).guard.cells[idx]? = some (c'.wipe region) := by
    show (gd.guard.cells.map _)[idx]? = _
    rw [List.getElem?_map, h.cell]
    rfl
  refine ⟨⟨hcell, (RawCell.addr_wipe ..).trans h.addr, h.active, h.stage⟩, ?_⟩
  have hm := h.stage
  -- the page that the byte is on, when it is on one
  have hpage : ∀ side, pivot c m = some side →
      ((∃ side, pivot c m = some side ∧ region.Inside (c.addr side)) →
        (c'.wipe region).page side = 0) ∧
      ((¬ ∃ side, pivot c m = some side ∧ region.Inside (c.addr side)) →
        (c'.wipe region).page side = c'.page side) := by
    intro side hside
    rw [RawCell.page_wipe, h.addr]
    refine ⟨fun ⟨side', hside', hinside⟩ => ?_, fun hnot => ?_⟩
    · obtain rfl := Option.some.inj (hside.symm.trans hside')
      exact if_pos hinside
    · exact if_neg fun hinside => hnot ⟨side, hside, hinside⟩
  obtain ⟨hstage, hsettled⟩ | ⟨value, hloaded⟩ | hstored := gd.stage_cases idx
  · have hstage' : (gd.wipe region).stage idx = 0 := hstage
    have hwiped := Guard.settled_of_stage hstage' (c'.wipe region)
    have hpivot : pivot c m = some c'.active := by
      rw [pivot, if_neg (by omega), h.active, show (m + 1) / 3 = m / 3 by omega]
    rw [hwiped, hsettled]
    exact hpage _ hpivot
  · obtain ⟨hstage, hsettled⟩ := Guard.loaded hloaded
    have hloaded' : (gd.wipe region).service = some (.loaded idx value) := hloaded
    have hwiped := (Guard.loaded hloaded').2 (c'.wipe region)
    have hpivot : pivot c m = none := if_pos (by omega)
    rw [hwiped, hsettled, hpivot]
    exact ⟨fun ⟨_, hside, _⟩ => (nomatch hside), fun _ => rfl⟩
  · obtain ⟨hstage, hsettled⟩ := Guard.stored hstored
    have hstored' : (gd.wipe region).service = some (.stored idx) := hstored
    have hwiped := (Guard.stored hstored').2 (c'.wipe region)
    have hpivot : pivot c m = some c'.active.other := by
      rw [pivot, if_neg (by omega), h.active, show (m + 1) / 3 = m / 3 + 1 by omega]
      rfl
    rw [hwiped, hsettled]
    exact hpage _ hpivot

/-- The guard has the cell, `m` steps later, with this byte. -/
def State.Has (c : RawCell) (g idx m : ℕ) (value : UInt8) (s : State) : Prop :=
  ∃ gd c', s.guards[g]? = some gd ∧ Tracks c idx m gd c' ∧ gd.settled idx c' = value

/-- The watchdog writes to the page that the byte is on. -/
def Event.Hits (c : RawCell) (m : ℕ) (event : Event) : Prop :=
  ∃ i region side, event = .wiped i region ∧ pivot c m = some side ∧ region.Inside (c.addr side)

/-- What an event makes of the byte. -/
def State.Goes (c : RawCell) (g idx m : ℕ) (value : UInt8) (event : Event) (t : State) : Prop :=
  ∃ value', t.Has c g idx (m + if event.isMove g idx then 1 else 0) value' ∧
    (event.Hits c m → value' = 0) ∧ (¬ event.Hits c m → value' = value)

variable {killTarget : Bool} {s t : State} {value : UInt8}

/-- An event that does not concern the cell. -/
theorem State.Has.goes (h : t.Has c g idx m value) (hmove : event.isMove g idx = false)
    (hwiped : ∀ i region, event ≠ .wiped i region) : t.Goes c g idx m value event := by
  refine ⟨value, ?_, fun ⟨i, region, _, heq, _⟩ => absurd heq (hwiped i region), fun _ => rfl⟩
  rwa [hmove]

/-- A step of a worker, which is at the cell or at another one. -/
theorem State.Has.moved {g' idx' : ℕ} (h : s.Has c g idx m value)
    (hgd : s.guards[g']? = some gd)
    (hhere : idx' = idx → ∀ c', Tracks c idx m gd c' → ∃ c'', Tracks c idx (m + 1) gd' c'' ∧
      gd'.settled idx c'' = gd.settled idx c')
    (haway : idx' ≠ idx → gd'.guard.cells[idx]? = gd.guard.cells[idx]? ∧
      gd.stage idx = 0 ∧ gd'.stage idx = 0) :
    (s.setGuard g' gd').Goes c g idx m value (.moved g' idx') := by
  have hhits : ¬ (Event.moved g' idx').Hits c m := fun ⟨_, _, _, heq, _⟩ => nomatch heq
  refine ⟨value, ?_, fun hh => absurd hh hhits, fun _ => rfl⟩
  obtain ⟨gd₀, c', hgd₀, htracks, rfl⟩ := h
  by_cases hg : g' = g
  · subst hg
    obtain rfl := Option.some.inj (hgd₀.symm.trans hgd)
    have hset : (s.setGuard g' gd').guards[g']? = some gd' :=
      List.getElem?_set_self (List.getElem?_eq_some_iff.mp hgd).1
    by_cases hidx : idx' = idx
    · obtain ⟨c'', htracks', hsettled⟩ := hhere hidx c' htracks
      rw [show (Event.moved g' idx').isMove g' idx = true from decide_eq_true ⟨rfl, hidx⟩,
        if_pos rfl]
      exact ⟨gd', c'', hset, htracks', hsettled⟩
    · obtain ⟨hcell, hstage, hstage'⟩ := haway hidx
      obtain ⟨htracks', hsettled⟩ := htracks.elsewhere hcell hstage hstage'
      rw [show (Event.moved g' idx').isMove g' idx = false from
        decide_eq_false fun hh => hidx hh.2]
      exact ⟨gd', c', hset, htracks', hsettled⟩
  · rw [show (Event.moved g' idx').isMove g idx = false from decide_eq_false fun hh => hg hh.1]
    exact ⟨gd₀, c', (List.getElem?_set_ne hg).trans hgd₀, htracks, rfl⟩

theorem State.Has.step (h : s.Has c g idx m value) (hstep : Step killTarget s event t) :
    t.Goes c g idx m value event := by
  have hquiet : ∀ {u : State}, u.guards = s.guards → u.Goes c g idx m value .quiet := by
    intro u hu
    refine State.Has.goes ?_ rfl nofun
    rwa [State.Has, hu]
  cases hstep with
  | @load g' idx' gd c₀ _ hgd hservice _ hcell =>
    refine h.moved hgd ?_ fun hne => ⟨rfl, (Guard.unserved hservice idx).1, if_neg hne⟩
    rintro rfl c' htracks
    obtain rfl := Option.some.inj (hcell.symm.trans htracks.cell)
    exact ⟨_, htracks.load hservice rfl rfl⟩
  | @store g' idx' gd c₀ value' _ hgd hservice hcell =>
    refine h.moved hgd ?_ fun hne => ⟨List.getElem?_set_ne hne, ?_, if_neg hne⟩
    · rintro rfl c' htracks
      obtain rfl := Option.some.inj (hcell.symm.trans htracks.cell)
      exact ⟨_, htracks.store hservice⟩
    · rw [Guard.stage, hservice]
      exact if_neg hne
  | @switch g' idx' gd c₀ _ hgd hservice hcell =>
    refine h.moved hgd ?_ fun hne => ⟨List.getElem?_set_ne hne, ?_, rfl⟩
    · rintro rfl c' htracks
      obtain rfl := Option.some.inj (hcell.symm.trans htracks.cell)
      exact ⟨_, htracks.switch hservice⟩
    · rw [Guard.stage, hservice]
      exact if_neg hne
  | newGuard =>
    obtain ⟨gd, c', hgd, htracks, hvalue⟩ := h
    refine State.Has.goes ⟨gd, c', ?_, htracks, hvalue⟩ rfl nofun
    exact (List.getElem?_append_left (List.getElem?_eq_some_iff.mp hgd).1).trans hgd
  | @collapse g' gd' _ hgd' hservice =>
    obtain ⟨gd, c', hgd, htracks, hvalue⟩ := h
    refine State.Has.goes ?_ rfl nofun
    by_cases hg : g' = g
    · subst hg
      obtain rfl := Option.some.inj (hgd.symm.trans hgd')
      obtain ⟨htracks', hsettled⟩ := htracks.collapse hservice
      exact ⟨_, c'.collapse, List.getElem?_set_self (List.getElem?_eq_some_iff.mp hgd).1,
        htracks', hsettled.trans hvalue⟩
    · exact ⟨gd, c', (List.getElem?_set_ne hg).trans hgd, htracks, hvalue⟩
  | entry => exact h.goes rfl nofun
  | @wipe i n region =>
    obtain ⟨gd, c', hgd, htracks, rfl⟩ := h
    obtain ⟨htracks', hhit, hmissed⟩ := htracks.wipe region
    have hiff : (Event.wiped i region).Hits c m ↔
        ∃ side, pivot c m = some side ∧ region.Inside (c.addr side) := by
      constructor
      · rintro ⟨_, _, side, heq, hside⟩
        obtain ⟨-, rfl⟩ := Event.wiped.inj heq
        exact ⟨side, hside⟩
      · rintro ⟨side, hside⟩
        exact ⟨i, region, side, rfl, hside⟩
    refine ⟨_, ⟨gd.wipe region, c'.wipe region, ?_, htracks', rfl⟩, fun hh => hhit (hiff.mp hh),
      fun hh => hmissed fun hside => hh (hiff.mpr hside)⟩
    show (s.guards.map _)[g]? = _
    rw [List.getElem?_map, hgd]
    rfl
  | fail => exact h.goes rfl nofun
  | _ => exact hquiet rfl

/-- **One cell.**  In every run that begins while the guard is not in service, the byte of a
cell is gone when the watchdog has written to the page that it was on, and else it is not. -/
theorem State.Has.run (hrun : Run (Step killTarget) s events t) (h : s.Has c g idx 0 value) :
    ∃ value', t.Has c g idx (moves g idx events) value' ∧ (Hit c g idx events → value' = 0) ∧
      (¬ Hit c g idx events → value' = value) := by
  induction hrun with
  | nil => exact ⟨value, h, fun ⟨_, _, _, _, _, hsplit, _⟩ => by simp at hsplit, fun _ => rfl⟩
  | @snoc events t u event _ hstep ih =>
    obtain ⟨value₁, h₁, hhit, hmissed⟩ := ih
    obtain ⟨value₂, h₂, hhit', hmissed'⟩ := h₁.step hstep
    refine ⟨value₂, moves_concat g idx .. ▸ h₂, fun hh => ?_, fun hh => ?_⟩
    · by_cases hhits : event.Hits c (moves g idx events)
      · exact hhit' hhits
      · exact (hmissed' hhits).trans (hhit ((hit_concat.mp hh).resolve_right hhits))
    · rw [hit_concat, not_or] at hh
      exact (hmissed' hh.2).trans (hmissed hh.1)

end Steps

/-! ### The sweep -/

/-- The entry that an event is about. -/
def Event.index? : Event → Option ℕ
  | .wiped i _ | .failed i => some i
  | .moved _ _ | .stored _ _ | .quiet => none

/-- What happens before the watchdog is through with an entry. -/
def before (k : ℕ) (events : List Event) : List Event :=
  events.takeWhile fun event => event.index? ≠ some k

/-- The watchdog has not come to the second entry. -/
def Watcher.Early : Watcher → Prop
  | .polling | .opening _ => True
  | .sweeping i _ | .addressed i _ _ | .located i _ _ => i = 0
  | .flagging | .killing | .ended => False

/-- It is at entry `i` of the table as it was in `u`, or through with all `n` of them. -/
def Watcher.At (u : State) (n i : ℕ) : Watcher → Prop
  | .polling | .opening _ => False
  | .sweeping j m => j = i ∧ m = n ∧ i ≤ n
  | .addressed j m addr => j = i ∧ m = n ∧ i < n ∧ addr = u.entries (2 * i)
  | .located j m region => j = i ∧ m = n ∧ i < n ∧ region = u.region i
  | .flagging | .killing | .ended => i = n

/-- The sweep so far: it is at entry `i`, and all entries before it have been wiped, or failed,
one after the other. -/
structure Swept (u : State) (n : ℕ) (events : List Event) (t : State) (i : ℕ) : Prop where
  at_entry : t.watcher.At u n i
  indices : events.filterMap Event.index? = List.range i
  wiped : ∀ j region, .wiped j region ∈ events → region = u.region j
  entries : ∀ x < 2 * n, t.entries x = u.entries x

section Sweep

variable {killTarget : Bool} {s t u v : State} {n i : ℕ} {events : List Event} {event : Event}

theorem Step.early (hstep : Step killTarget s event t) (h : t.watcher.Early) :
    s.watcher.Early ∧ event.index? = none := by
  cases hstep with
  | lost => exact h.elim
  | detect hat => exact ⟨by rw [hat]; trivial, rfl⟩
  | unopened => exact h.elim
  | opened hat => exact ⟨by rw [hat]; trivial, rfl⟩
  | address hat => exact ⟨by rw [hat]; exact h, rfl⟩
  | length hat => exact ⟨by rw [hat]; exact h, rfl⟩
  | wipe => exact nomatch (show _ + 1 = 0 from h)
  | fail => exact nomatch (show _ + 1 = 0 from h)
  | done => exact h.elim
  | flag => exact h.elim
  | kill => exact h.elim
  | _ => exact ⟨h, rfl⟩

/-- Nothing has been wiped before the sweep. -/
theorem indices_of_early (hrun : Run (Step killTarget) s events t) (h : t.watcher.Early) :
    events.filterMap Event.index? = [] := by
  induction hrun with
  | nil => rfl
  | snoc _ hstep ih =>
    obtain ⟨hearly, hindex⟩ := hstep.early h
    rw [List.filterMap_append, ih hearly, List.filterMap_cons_none hindex]
    rfl

theorem Swept.step (h : Swept u n events t i) (hstep : Step killTarget t event v)
    (hstored : ∀ x value, event = .stored x value → 2 * n ≤ x) :
    ∃ j, Swept u n (events ++ [event]) v j := by
  have hquiet : ∀ {w : State} {event : Event} {j : ℕ}, event.index? = none →
      w.watcher.At u n j → (∀ x < 2 * n, w.entries x = u.entries x) → j = i →
      ∃ j, Swept u n (events ++ [event]) w j := by
    rintro w event j hindex hat hentries rfl
    refine ⟨j, hat, ?_, fun k region hk => ?_, hentries⟩
    · rw [List.filterMap_append, h.indices, List.filterMap_cons_none hindex]
      exact List.append_nil _
    · rcases List.mem_append.mp hk with hk | hk
      · exact h.wiped k region hk
      · rw [← List.mem_singleton.mp hk] at hindex
        exact nomatch hindex
  have hat := h.at_entry
  cases hstep with
  | entry =>
    refine hquiet rfl hat (fun x hx => ?_) rfl
    exact (Function.update_of_ne (fun heq => by have := hstored _ _ rfl; omega) ..).trans
      (h.entries x hx)
  | lost hw => rw [hw] at hat; exact hat.elim
  | detect hw => rw [hw] at hat; exact hat.elim
  | unopened hw => rw [hw] at hat; exact hat.elim
  | opened hw => rw [hw] at hat; exact hat.elim
  | address hw hlt =>
    rw [hw] at hat
    obtain ⟨rfl, rfl, -⟩ := hat
    exact hquiet rfl ⟨rfl, rfl, hlt, h.entries _ (by omega)⟩ h.entries rfl
  | length hw =>
    rw [hw] at hat
    obtain ⟨rfl, rfl, hlt, rfl⟩ := hat
    refine hquiet rfl ⟨rfl, rfl, hlt, ?_⟩ h.entries rfl
    rw [State.region, h.entries _ (by omega)]
  | wipe hw =>
    rw [hw] at hat
    obtain ⟨rfl, rfl, hlt, rfl⟩ := hat
    refine ⟨_, ⟨rfl, rfl, hlt⟩, ?_, fun k region hk => ?_, h.entries⟩
    · rw [List.filterMap_append, h.indices, List.range_succ]
      rfl
    · rcases List.mem_append.mp hk with hk | hk
      · exact h.wiped k region hk
      · obtain ⟨rfl, rfl⟩ := Event.wiped.inj (List.mem_singleton.mp hk)
        rfl
  | fail hw =>
    rw [hw] at hat
    obtain ⟨rfl, rfl, hlt, rfl⟩ := hat
    refine ⟨_, ⟨rfl, rfl, hlt⟩, ?_, fun k region hk => ?_, h.entries⟩
    · rw [List.filterMap_append, h.indices, List.range_succ]
      rfl
    · rcases List.mem_append.mp hk with hk | hk
      · exact h.wiped k region hk
      · exact nomatch List.mem_singleton.mp hk
  | done hw =>
    rw [hw] at hat
    obtain ⟨rfl, rfl, -⟩ := hat
    exact hquiet rfl (show _ = _ from rfl) h.entries rfl
  | flag hw => rw [hw] at hat; exact hquiet rfl hat h.entries rfl
  | kill hw => rw [hw] at hat; exact hquiet rfl hat h.entries rfl
  | _ => exact hquiet rfl hat h.entries rfl

theorem swept_of_run (hrun : Run (Step killTarget) u events t) (hstart : u.watcher = .sweeping 0 n)
    (hstored : ∀ x value, .stored x value ∈ events → 2 * n ≤ x) :
    ∃ i, Swept u n events t i := by
  induction hrun with
  | nil => exact ⟨0, by rw [hstart]; exact ⟨rfl, rfl, Nat.zero_le n⟩, rfl, nofun, fun _ _ => rfl⟩
  | snoc _ hstep ih =>
    obtain ⟨i, h⟩ := ih fun x value hx => hstored x value (List.mem_append_left _ hx)
    exact h.step hstep fun x value heq =>
      hstored x value (List.mem_append_right _ (List.mem_singleton.mpr heq.symm))

/-- The events about an entry are one. -/
theorem before_eq {k : ℕ} {pre post : List Event} (h : events = pre ++ event :: post)
    (hindex : event.index? = some k) (hnodup : (events.filterMap Event.index?).Nodup) :
    before k events = pre := by
  subst h
  rw [List.filterMap_append, List.filterMap_cons_some hindex, List.nodup_append] at hnodup
  have hpre : ∀ e ∈ pre, decide (e.index? ≠ some k) = true := by
    intro e he
    refine decide_eq_true fun heq => ?_
    exact hnodup.2.2 k (List.mem_filterMap.mpr ⟨e, he, heq⟩) k List.mem_cons_self rfl
  rw [before, List.takeWhile_append_of_pos hpre, List.takeWhile_cons_of_neg, List.append_nil]
  rw [hindex]
  exact fun hne => of_decide_eq_true hne rfl

/-- Each entry has had its turn. -/
theorem Swept.turn (h : Swept u n events t n) {k : ℕ} (hk : k < n) :
    ∃ event post, events = before k events ++ event :: post ∧ event.index? = some k := by
  have hmem : k ∈ events.filterMap Event.index? := h.indices ▸ List.mem_range.mpr hk
  obtain ⟨event, hevent, hindex⟩ := List.mem_filterMap.mp hmem
  obtain ⟨pre, post, hsplit⟩ := List.append_of_mem hevent
  have hnodup : (events.filterMap Event.index?).Nodup := h.indices ▸ List.nodup_range
  exact ⟨event, post, by rw [before_eq hsplit hindex hnodup]; exact hsplit, hindex⟩

/-- Each page of the cell is in one entry of the table. -/
structure Listed (u : State) (n : ℕ) (c : RawCell) (k : Side → ℕ) : Prop where
  lt : ∀ side, k side < n
  only : ∀ side i, i < n → ((u.region i).Inside (c.addr side) ↔ i = k side)

theorem hit_iff {early : List Event} (hearly : Run (Step killTarget) s early u)
    (hstart : u.watcher = .sweeping 0 n) (hswept : Swept u n events t n) {c : RawCell}
    {k : Side → ℕ} (hlisted : Listed u n c k) (hfailed : ∀ side, .failed (k side) ∉ events)
    (g idx : ℕ) :
    Hit c g idx (early ++ events) ↔
      ∃ side, pivot c (moves g idx (early ++ before (k side) events)) = some side := by
  have hnone : early.filterMap Event.index? = [] := indices_of_early hearly (by
    rw [hstart]
    exact rfl)
  have hindices : (early ++ events).filterMap Event.index? = List.range n := by
    rw [List.filterMap_append, hnone, hswept.indices, List.nil_append]
  have hnodup : ((early ++ events).filterMap Event.index?).Nodup :=
    hindices ▸ List.nodup_range
  constructor
  · rintro ⟨pre, i, region, post, side, hsplit, hpivot, hinside⟩
    have hi : i < n := by
      have hmem : i ∈ (early ++ events).filterMap Event.index? :=
        List.mem_filterMap.mpr ⟨.wiped i region, by rw [hsplit]; simp, rfl⟩
      exact List.mem_range.mp (hindices ▸ hmem)
    obtain ⟨event, post', hevents, hindex⟩ := hswept.turn hi
    have hsplit' : early ++ events = (early ++ before i events) ++ event :: post' := by
      rw [List.append_assoc, ← hevents]
    have hpre : pre = early ++ before i events :=
      (before_eq hsplit rfl hnodup).symm.trans (before_eq hsplit' hindex hnodup)
    -- the write is in the sweep, so that the region is what the table says
    have hmem : .wiped i region ∈ events := by
      have hin : .wiped i region ∈ early ++ events := by rw [hsplit]; simp
      refine (List.mem_append.mp hin).resolve_left fun hin => ?_
      have : i ∈ early.filterMap Event.index? := List.mem_filterMap.mpr ⟨_, hin, rfl⟩
      rw [hnone] at this
      exact List.not_mem_nil this
    rw [hswept.wiped i region hmem] at hinside
    obtain rfl := (hlisted.only side i hi).mp hinside
    exact ⟨side, hpre ▸ hpivot⟩
  · rintro ⟨side, hpivot⟩
    obtain ⟨event, post, hevents, hindex⟩ := hswept.turn (hlisted.lt side)
    have hmem : event ∈ events := by rw [hevents]; simp
    cases event with
    | wiped i region =>
      obtain rfl := Option.some.inj hindex
      refine ⟨early ++ before (k side) events, k side, region, post, side, ?_, hpivot, ?_⟩
      · rw [List.append_assoc, ← hevents]
      · rw [hswept.wiped _ region hmem]
        exact (hlisted.only side _ (hlisted.lt side)).mpr rfl
    | failed i =>
      obtain rfl := Option.some.inj hindex
      exact absurd hmem (hfailed side)
    | moved => exact nomatch hindex
    | stored => exact nomatch hindex
    | quiet => exact nomatch hindex

theorem has_start {g idx : ℕ} {gd : Guard} {c : RawCell} (hgd : s.guards[g]? = some gd)
    (hservice : gd.service = none) (hcell : gd.guard.cells[idx]? = some c) :
    s.Has c g idx 0 (c.page c.active) := by
  obtain ⟨hstage, hsettled⟩ := Guard.unserved hservice idx
  exact ⟨gd, c, hgd, ⟨hcell, rfl, rfl, hstage⟩, hsettled c⟩

/-- One cell, whose two pages make up the table. -/
def sample (service : Option Service) (pages : UInt8 × UInt8) (watcher : Watcher) : State where
  guards := [⟨⟨[⟨pages.1, pages.2, .a, 4096, 8192, false⟩], false⟩, service⟩]
  entries x := [4096, 4096, 8192, 4096].getD x 0
  regionCount := 2
  watcher := watcher
  detected := false
  gone := false

/-- The byte has been read when the watchdog comes. -/
theorem sample_early :
    Run (Step true) (sample none (7, 0) .polling) [.moved 0 0, .quiet, .quiet]
      (sample (some (.loaded 0 7)) (7, 0) (.sweeping 0 2)) :=
  (Run.single (.load rfl rfl rfl rfl rfl)).snoc (.detect rfl) |>.snoc (.opened rfl)

theorem sample_sweep :
    Run (Step true) (sample (some (.loaded 0 7)) (7, 0) (.sweeping 0 2))
      [.quiet, .quiet, .wiped 0 (4096, 4096), .quiet, .quiet, .wiped 1 (8192, 4096), .quiet]
      (sample (some (.loaded 0 7)) (0, 0) .flagging) := by
  have hfirst : Step true (sample (some (.loaded 0 7)) (7, 0) (.located 0 2 (4096, 4096)))
      (.wiped 0 (4096, 4096)) (sample (some (.loaded 0 7)) (0, 0) (.sweeping 1 2)) := .wipe rfl
  have hsecond : Step true (sample (some (.loaded 0 7)) (0, 0) (.located 1 2 (8192, 4096)))
      (.wiped 1 (8192, 4096)) (sample (some (.loaded 0 7)) (0, 0) (.sweeping 2 2)) := .wipe rfl
  exact (Run.single (.address rfl (by decide))).snoc (.length rfl) |>.snoc hfirst
    |>.snoc (.address rfl (by decide)) |>.snoc (.length rfl) |>.snoc hsecond |>.snoc (.done rfl)

/-- Which entry a page of the cell is in. -/
def sampleEntry : Side → ℕ
  | .a => 0
  | .b => 1

theorem sample_listed :
    Listed (sample (some (.loaded 0 7)) (7, 0) (.sweeping 0 2)) 2 ⟨7, 0, .a, 4096, 8192, false⟩
      sampleEntry where
  lt side := by cases side <;> decide
  only side i hi := by interval_cases i <;> cases side <;> decide

/-- **Missed cells.**  Let the watchdog find a tracer, open the memory of the target and get
through the table, in any interleaving with the target, which meanwhile leaves the entries alone
that are there.  A cell whose pages are both listed keeps its byte when at neither write the byte
was on the page that was written, or to be read from there next; else it has lost it. -/
theorem missed_iff {early : List Event} (hearly : Run (Step killTarget) s early u)
    (hstart : u.watcher = .sweeping 0 n) (hrun : Run (Step killTarget) u events t)
    (hend : t.watcher = .flagging) (hstored : ∀ x value, .stored x value ∈ events → 2 * n ≤ x)
    {g idx : ℕ} {gd : Guard} {c : RawCell} (hgd : s.guards[g]? = some gd)
    (hservice : gd.service = none) (hcell : gd.guard.cells[idx]? = some c) {k : Side → ℕ}
    (hlisted : Listed u n c k) (hfailed : ∀ side, .failed (k side) ∉ events) :
    ∃ gd' c', t.guards[g]? = some gd' ∧ gd'.guard.cells[idx]? = some c' ∧
      ((∀ side, pivot c (moves g idx (early ++ before (k side) events)) ≠ some side) →
        gd'.settled idx c' = c.page c.active) ∧
      ((∃ side, pivot c (moves g idx (early ++ before (k side) events)) = some side) →
        gd'.settled idx c' = 0) := by
  obtain ⟨i, hswept⟩ := swept_of_run hrun hstart hstored
  obtain rfl : i = n := by
    have hat := hswept.at_entry
    rwa [hend] at hat
  obtain ⟨value, ⟨gd', c', hgd', htracks, rfl⟩, hhit, hmissed⟩ :=
    (has_start hgd hservice hcell).run (hearly.trans hrun)
  have hiff := hit_iff hearly hstart hswept hlisted hfailed g idx
  refine ⟨gd', c', hgd', htracks.cell, fun hout => hmissed fun hh => ?_,
    fun hh => hhit (hiff.mpr hh)⟩
  obtain ⟨side, hside⟩ := hiff.mp hh
  exact hout side hside

/-- The byte has been read and not been written. -/
theorem missed_iff_sample :
    ∃ gd' c', (sample (some (.loaded 0 7)) (0, 0) .flagging).guards[0]? = some gd' ∧
      gd'.guard.cells[0]? = some c' ∧ gd'.settled 0 c' = 7 := by
  have hgd : (sample none (7, 0) .polling).guards[0]?
      = some ⟨⟨[⟨7, 0, .a, 4096, 8192, false⟩], false⟩, none⟩ := rfl
  have hcell : [(⟨7, 0, .a, 4096, 8192, false⟩ : RawCell)][0]?
      = some ⟨7, 0, .a, 4096, 8192, false⟩ := rfl
  obtain ⟨gd', c', hgd', hcell', hkept, -⟩ := missed_iff sample_early rfl sample_sweep
    rfl (by simp) hgd rfl hcell sample_listed (by simp)
  refine ⟨gd', c', hgd', hcell', hkept fun side => ?_⟩
  cases side <;> decide

/-- **A target that stands still.**  When no worker of a guard takes a step during the sweep, a
cell whose pages are listed, and can be written, loses its byte, unless it is the one whose byte a
worker has read and not written. -/
theorem stopped_sweep {early : List Event} (hearly : Run (Step killTarget) s early u)
    (hstart : u.watcher = .sweeping 0 n) (hrun : Run (Step killTarget) u events t)
    (hend : t.watcher = .flagging) (hstored : ∀ x value, .stored x value ∈ events → 2 * n ≤ x)
    {g : ℕ} {gd : Guard} (hgd : s.guards[g]? = some gd) (hservice : gd.service = none)
    (hstill : ∀ idx, .moved g idx ∉ events) {idx : ℕ} {c : RawCell}
    (hcell : gd.guard.cells[idx]? = some c)
    (hlisted : ∃ k, Listed u n c k ∧ ∀ side, .failed (k side) ∉ events) :
    ∃ gd' c', t.guards[g]? = some gd' ∧ gd'.guard.cells[idx]? = some c' ∧
      (gd'.settled idx c' = 0 ∨ ∃ value, gd'.service = some (.loaded idx value)) := by
  obtain ⟨i, hswept⟩ := swept_of_run hrun hstart hstored
  obtain rfl : i = n := by
    have hat := hswept.at_entry
    rwa [hend] at hat
  have hnone : ∀ later ⊆ events, moves g idx (early ++ later) = moves g idx early := by
    intro later hlater
    have hzero : moves g idx later = 0 := by
      refine List.countP_eq_zero.mpr fun event hevent hmove => ?_
      cases event with
      | moved g' idx' =>
        obtain ⟨rfl, rfl⟩ := of_decide_eq_true hmove
        exact hstill _ (hlater hevent)
      | _ => exact Bool.false_ne_true hmove
    rw [moves, List.countP_append]
    exact (congrArg _ hzero).trans (Nat.add_zero _)
  obtain ⟨k, hk, hfailed⟩ := hlisted
  obtain ⟨value, ⟨gd', c', hgd', htracks, rfl⟩, hhit, -⟩ :=
    (has_start hgd hservice hcell).run (hearly.trans hrun)
  refine ⟨gd', c', hgd', htracks.cell, ?_⟩
  by_cases hm : moves g idx early % 3 = 1
  · have hstage := htracks.stage
    rw [hnone events (List.Subset.refl _), hm] at hstage
    obtain ⟨hzero, -⟩ | ⟨value, hloaded⟩ | hstored := gd'.stage_cases idx
    · exact nomatch hzero.symm.trans hstage
    · exact Or.inr ⟨value, hloaded⟩
    · exact nomatch (Guard.stored hstored).1.symm.trans hstage
  -- the byte is on one page throughout the sweep, and that page is written
  · obtain ⟨side, hside⟩ : ∃ side, pivot c (moves g idx early) = some side := ⟨_, if_neg hm⟩
    refine Or.inl (hhit ((hit_iff hearly hstart hswept hk hfailed g idx).mpr ⟨side, ?_⟩))
    have hbefore : before (k side) events ⊆ events := (List.takeWhile_sublist _).subset
    rw [hnone _ hbefore, hside]

/-- The byte has been read and not been written. -/
theorem stopped_sweep_sample :
    ∃ gd' c', (sample (some (.loaded 0 7)) (0, 0) .flagging).guards[0]? = some gd' ∧
      gd'.guard.cells[0]? = some c' ∧
      (gd'.settled 0 c' = 0 ∨ ∃ value, gd'.service = some (.loaded 0 value)) := by
  have hgd : (sample none (7, 0) .polling).guards[0]?
      = some ⟨⟨[⟨7, 0, .a, 4096, 8192, false⟩], false⟩, none⟩ := rfl
  have hcell : (⟨[⟨7, 0, .a, 4096, 8192, false⟩], false⟩ : SplitKeyGuard).cells[0]?
      = some ⟨7, 0, .a, 4096, 8192, false⟩ := rfl
  exact stopped_sweep sample_early rfl sample_sweep rfl (by simp) hgd rfl (by simp) hcell
    ⟨sampleEntry, sample_listed, by simp⟩

end Sweep

end WatchdogSweep
