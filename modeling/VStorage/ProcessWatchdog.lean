/-
`process_watchdog.py` and the storage that registers its pages there.

The table of the watchdog is a shared array with a cursor.  `save` makes the boxes of a
file, which fall from then on, reads the pages of each while it falls, and appends them;
a box that rotates gets a slot for the pages of its new guard the first time and
overwrites it every other time.  Nothing is ever taken out.

* `refused_iff`: a request is refused in a run exactly when the files ever saved and the
  boxes that ever rotated need more than the table has, whether they are held or not.
* `table_fills_up`: so one file at a time, saved and forgotten often enough, fills it.
-/
import Mathlib
import VStorage.FallScheduler

open ChunkedSecureBox (HopEnv InitEnv Source construct Regular)

/-! ### The table -/

/-- The shared state of `ProcessWatchdog`: `_regions`, in pairs, and `_region_count`. -/
structure ProcessWatchdog where
  regions : ℕ → Region
  regionCount : ℕ

namespace ProcessWatchdog

/-- `MAX_REGIONS`. -/
def maxRegions : ℕ := 200000

/-- A shared array starts out as zeros. -/
def new : ProcessWatchdog := ⟨fun _ => (0, 0), 0⟩

/-- The loop `for j, (addr, length) in enumerate(regions)` that stores them from `i` on. -/
def store (i : ℕ) (regions : List Region) (table : ℕ → Region) : ℕ → Region :=
  regions.zipIdx.foldl (fun table (region, j) => Function.update table (i + j) region) table

/-- `add_regions`, with `none` for `RuntimeError`. -/
def addRegions (w : ProcessWatchdog) (regions : List Region) : Option ProcessWatchdog :=
  let i := w.regionCount
  if i + regions.length > maxRegions then none
  else some { regions := store i regions w.regions, regionCount := i + regions.length }

/-- `reserve_slot`. -/
def reserveSlot (w : ProcessWatchdog) (count : ℕ) : ProcessWatchdog × ℤ :=
  let i := w.regionCount
  if i + count > maxRegions then (w, -1) else ({ w with regionCount := i + count }, i)

/-- `update_slot`. -/
def updateSlot (w : ProcessWatchdog) (startIndex : ℤ) (regions : List Region) :
    ProcessWatchdog :=
  if startIndex < 0 then w
  else { w with regions := store startIndex.toNat regions w.regions }

/-- An entry that the watchdog goes through when it wipes. -/
def Covers (w : ProcessWatchdog) (region : Region) : Prop :=
  ∃ k < w.regionCount, w.regions k = region

theorem store_apply (i : ℕ) (regions : List Region) (table : ℕ → Region) (k : ℕ) :
    store i regions table k = if i ≤ k then regions[k - i]?.getD (table k) else table k := by
  induction regions using List.reverseRecOn with
  | nil => simp [store]
  | append_singleton regions region ih =>
    rw [store] at ih ⊢
    rw [List.zipIdx_append, List.foldl_append, List.zipIdx_singleton, List.foldl_cons,
      List.foldl_nil]
    dsimp only
    rw [Function.update_apply, ih, Nat.zero_add]
    by_cases hk : k = i + regions.length
    · have hsub : i + regions.length - i = regions.length := by omega
      rw [if_pos hk, if_pos (by omega), hk, hsub, List.getElem?_concat_length]
      rfl
    · rw [if_neg hk]
      by_cases hi : i ≤ k
      · rw [if_pos hi, if_pos hi]
        rcases lt_or_gt_of_ne (show k - i ≠ regions.length by omega) with hlt | hgt
        · rw [List.getElem?_append_left hlt]
        · rw [List.getElem?_eq_none (by omega), List.getElem?_eq_none (by simp; omega)]
      · rw [if_neg hi, if_neg hi]

theorem store_inside {i k : ℕ} {regions : List Region} {table : ℕ → Region} {region : Region}
    (h : regions[k]? = some region) : store i regions table (i + k) = region := by
  rw [store_apply, if_pos (Nat.le_add_right i k), Nat.add_sub_cancel_left, h]
  rfl

theorem store_outside {i k : ℕ} {regions : List Region} {table : ℕ → Region}
    (h : k < i ∨ i + regions.length ≤ k) : store i regions table k = table k := by
  rw [store_apply]
  split
  · rw [List.getElem?_eq_none (by omega)]
    rfl
  · rfl

theorem addRegions_none {w : ProcessWatchdog} {regions : List Region}
    (h : w.addRegions regions = none) : maxRegions < w.regionCount + regions.length := by
  unfold addRegions at h
  dsimp only at h
  split at h
  · assumption
  · exact nomatch h

theorem addRegions_some {w w' : ProcessWatchdog} {regions : List Region}
    (h : w.addRegions regions = some w') :
    w.regionCount + regions.length ≤ maxRegions ∧
      w' = ⟨store w.regionCount regions w.regions, w.regionCount + regions.length⟩ := by
  unfold addRegions at h
  dsimp only at h
  split at h
  · exact nomatch h
  · rename_i hroom
    exact ⟨Nat.not_lt.mp hroom, (Option.some.inj h).symm⟩

/-- Registration adds the given regions to what is covered. -/
theorem covers_addRegions {w w' : ProcessWatchdog} {regions : List Region}
    (h : w.addRegions regions = some w') {region : Region} (hcovers : w'.Covers region) :
    region ∈ regions ∨ w.Covers region := by
  obtain ⟨-, rfl⟩ := addRegions_some h
  obtain ⟨k, hk, rfl⟩ := hcovers
  change k < w.regionCount + regions.length at hk
  rcases Nat.lt_or_ge k w.regionCount with hlt | hge
  · exact Or.inr ⟨k, hlt, (store_outside (Or.inl hlt)).symm⟩
  · obtain ⟨j, rfl⟩ := Nat.exists_eq_add_of_le hge
    have hj : j < regions.length := by omega
    refine Or.inl ?_
    show store w.regionCount regions w.regions (w.regionCount + j) ∈ regions
    rw [store_inside (List.getElem?_eq_getElem hj)]
    exact List.getElem_mem hj

theorem reserveSlot_cases (w : ProcessWatchdog) (count : ℕ) :
    maxRegions < w.regionCount + count ∧ w.reserveSlot count = (w, -1) ∨
      w.regionCount + count ≤ maxRegions ∧
        w.reserveSlot count
          = ({ w with regionCount := w.regionCount + count }, (w.regionCount : ℤ)) := by
  unfold reserveSlot
  by_cases h : w.regionCount + count > maxRegions
  · exact Or.inl ⟨h, if_pos h⟩
  · exact Or.inr ⟨Nat.not_lt.mp h, if_neg h⟩

@[simp] theorem regionCount_updateSlot (w : ProcessWatchdog) (startIndex : ℤ)
    (regions : List Region) : (w.updateSlot startIndex regions).regionCount = w.regionCount := by
  unfold updateSlot
  split <;> rfl

end ProcessWatchdog

/-! ### What a hop does to the pages of the guards -/

namespace ChunkedSecureBox

variable {P : Primitives}

/-- The pages of the guard at a position. -/
def guardRegions (box : ChunkedSecureBox) (i : ℕ) : List Region :=
  box.guards[i]?.elim [] SplitKeyGuard.regions

def currentRegions (box : ChunkedSecureBox) : List Region := box.guardRegions box.currentGuard

def nextRegions (box : ChunkedSecureBox) : List Region := box.guardRegions box.nextGuard

@[simp] theorem guardRegions_bounce (box : ChunkedSecureBox) (cell : ℕ × ℕ) (i : ℕ) :
    (box.bounce cell).guardRegions i = box.guardRegions i := by
  rw [guardRegions, guardRegions, bounce, List.getElem?_modify]
  cases box.guards[i]? with
  | none => rfl
  | some guard =>
    by_cases hi : cell.1 = i
    · simp [hi]
    · simp [hi]

@[simp] theorem guardRegions_bounces (box : ChunkedSecureBox) (cells : List (ℕ × ℕ)) (i : ℕ) :
    (box.bounces cells).guardRegions i = box.guardRegions i := by
  induction cells generalizing box with
  | nil => rfl
  | cons cell cells ih => exact (ih _).trans (guardRegions_bounce ..)

theorem regions_collapse (guard : SplitKeyGuard) : guard.collapse.regions = guard.regions := by
  rw [SplitKeyGuard.collapse, SplitKeyGuard.regions, SplitKeyGuard.regions, List.flatMap_map]
  rfl

theorem guardRegions_modify_collapse (box : ChunkedSecureBox) (i j : ℕ) :
    ({ box with guards := box.guards.modify i SplitKeyGuard.collapse } :
      ChunkedSecureBox).guardRegions j = box.guardRegions j := by
  rw [guardRegions, guardRegions, List.getElem?_modify]
  cases box.guards[j]? with
  | none => rfl
  | some guard =>
    by_cases hi : i = j
    · simp [hi, regions_collapse]
    · simp [hi]

theorem guardRegions_install (box : ChunkedSecureBox) (guard : SplitKeyGuard) :
    (box.install guard).guardRegions box.guards.length = guard.regions := by
  simp [guardRegions, install]

theorem guardRegions_install_of_lt {box : ChunkedSecureBox} (guard : SplitKeyGuard) {i : ℕ}
    (hi : i < box.guards.length) :
    (box.install guard).guardRegions i = box.guardRegions i := by
  rw [guardRegions, install, List.getElem?_append_left hi]
  rfl

/-- **Guards of a hop.**  A hop moves no guard, or its rotation gives the box new pages and
hands them over, or it raises with the next guard in both places. -/
theorem Regular.hop_regions {plains : List Bytes} {box : ChunkedSecureBox}
    (h : Regular P plains box) (hnew : box.onNewGuard = true) {env : HopEnv}
    (hcall : env.callback = .ok ()) :
    (box.hop P env).box.onNewGuard = true ∧
      ((box.hop P env).outcome = .ok () ∧ (box.hop P env).announced = none ∧
          (box.hop P env).box.currentRegions = box.currentRegions ∧
          (box.hop P env).box.nextRegions = box.nextRegions ∨
        (∃ key pages, (box.hop P env).outcome = .ok () ∧ env.mmap = .ok pages ∧
          (box.hop P env).announced = some (SplitKeyGuard.new P key pages).regions ∧
          (box.hop P env).box.currentRegions = box.nextRegions ∧
          (box.hop P env).box.nextRegions = (SplitKeyGuard.new P key pages).regions) ∨
        (∃ e, (box.hop P env).outcome = .error e ∧
          (box.hop P env).box.currentRegions = box.nextRegions ∧
          (box.hop P env).box.nextRegions = box.nextRegions)) := by
  obtain ⟨ck, nk, hold, -⟩ := h
  obtain ⟨pools, hadv, hcases⟩ := hop_cases hold env
  set box₁ := (box.bounces env.between).advance pools with hbox₁
  have hpages : ∀ i, box₁.guardRegions i = box.guardRegions i := fun i =>
    guardRegions_bounces box env.between i
  have hcurrent : box₁.currentGuard = box.currentGuard := (bounces_guards box env.between).1
  have hnext : box₁.nextGuard = box.nextGuard := (bounces_guards box env.between).2
  have hnew₁ : box₁.onNewGuard = true := by
    rw [hbox₁, bounces_eq]
    exact hnew
  rcases hcases with ⟨-, hhop⟩ | ⟨-, hhop⟩
  · rw [hhop]
    refine ⟨hnew₁, Or.inl ⟨rfl, rfl, ?_, ?_⟩⟩
    · rw [currentRegions, currentRegions, hpages, hcurrent]
    · rw [nextRegions, nextRegions, hpages, hnext]
  rw [hhop]
  obtain ⟨e, hrot, -⟩ | ⟨key, pages, -, hmmap, ⟨e, -, he, -⟩ | ⟨-, hrot⟩⟩ :=
    rotate_cases P env nk box₁
  · rw [hrot]
    have hpromoted : box₁.guardRegions box₁.nextGuard = box.nextRegions := by
      rw [hpages, hnext, nextRegions]
    exact ⟨hnew₁, Or.inr (Or.inr ⟨e, rfl, hpromoted, hpromoted⟩)⟩
  · exact nomatch hcall.symm.trans he
  · have hlt := hadv.nextGuard_lt
    rw [hrot, if_pos hnew₁]
    refine ⟨hnew₁, Or.inr (Or.inl ⟨key, pages, rfl, hmmap, rfl, ?_, ?_⟩)⟩
    · refine (guardRegions_modify_collapse (box₁.install _) _ _).trans ?_
      show (box₁.install _).guardRegions box₁.nextGuard = _
      rw [guardRegions_install_of_lt _ hlt, hpages, hnext, nextRegions]
    · refine (guardRegions_modify_collapse (box₁.install _) _ _).trans ?_
      exact guardRegions_install box₁ _

/-- Collapsing a box moves no page either. -/
theorem regions_of_collapse (box : ChunkedSecureBox) :
    box.collapse.currentRegions = box.currentRegions ∧
      box.collapse.nextRegions = box.nextRegions := by
  have hpages : ∀ i, box.collapse.guardRegions i = box.guardRegions i := fun i =>
    (guardRegions_modify_collapse { box with
      guards := box.guards.modify box.currentGuard SplitKeyGuard.collapse } _ _).trans
      (guardRegions_modify_collapse box _ _)
  exact ⟨hpages _, hpages _⟩

theorem regions_eq (box : ChunkedSecureBox) :
    box.regions = box.currentRegions ++ box.nextRegions ++ box.pools.map ChunkPool.region := rfl

theorem onNewGuard_construct {source : Source} {env : InitEnv} {data : Bytes} {chunkSize : ℕ}
    {trustGroup onNewGuard : Bool} {box : ChunkedSecureBox}
    (h : construct source P env data chunkSize trustGroup onNewGuard = .ok box) :
    box.onNewGuard = onNewGuard := by
  obtain ⟨_, _, _, -, rfl⟩ := construct_shape h
  rfl

end ChunkedSecureBox

/-! ### The storage -/

namespace SecureVirtualStorage

open ProcessWatchdog (maxRegions)

/-- `slot`, once it is filled: its index, which is -1 if there was no room, and its size. -/
structure Slot where
  index : ℤ
  size : ℕ

/-- `slot["index"] is None` holds at the first rotation only. -/
def takeSlot (count : ℕ) (w : ProcessWatchdog) : Option Slot → ProcessWatchdog × Slot
  | none => ((w.reserveSlot count).1, ⟨(w.reserveSlot count).2, count⟩)
  | some slot => (w, slot)

/-- `_on_new_guard`. -/
def onNewGuard (regions : List Region) (w : ProcessWatchdog) (slot : Option Slot) :
    ProcessWatchdog × Slot :=
  let (w, slot) := takeSlot regions.length w slot
  if slot.index ≠ -1 ∧ regions.length = slot.size then (w.updateSlot slot.index regions, slot)
  else (w, slot)

/-- How far `_hold` has got with `box.regions()`, which takes no lock: it may have read the
current guard in the middle of a rotation. -/
inductive Stage
  | unread
  | current (promoted : Bool)
  | guards
  | all
  | registered
  deriving DecidableEq

/-- The guard that was read as the current one is current once the rotation is over. -/
def Stage.rotated : Stage → Stage
  | .current _ => .current false
  | stage => stage

/-- A box with the registrar made for it.  In the middle of a rotation, while it asks for a
key, the next guard is in both places.  The rotations are those since its guards were read. -/
structure Falling where
  box : ChunkedSecureBox
  slot : Option Slot
  rotating : Bool
  stopped : Bool
  stage : Stage
  collected : List Region
  rotations : ℕ

def Falling.new (box : ChunkedSecureBox) : Falling where
  box := box
  slot := none
  rotating := false
  stopped := false
  stage := .unread
  collected := []
  rotations := 0

/-- The pages of `_current_guard`. -/
def Falling.currentRegions (f : Falling) : List Region :=
  if f.rotating then f.box.nextRegions else f.box.currentRegions

inductive Phase
  | making
  | held
  | raised
  | forgotten
  deriving DecidableEq

/-- A call of `_hold` and what becomes of its file: `_Held`, by the positions of its boxes. -/
structure Held where
  boxes : List ℕ
  phase : Phase

structure State where
  watchdog : ProcessWatchdog
  boxes : List Falling
  files : List Held

def start : State := ⟨.new, [], []⟩

def State.setBox (s : State) (b : ℕ) (f : Falling) : State :=
  { s with boxes := s.boxes.set b f }

def State.setFile (s : State) (h : ℕ) (file : Held) : State :=
  { s with files := s.files.set h file }

/-- `regions.extend(box.regions())` for every box of a file. -/
def State.collected (s : State) (file : Held) : List Region :=
  file.boxes.flatMap fun b => s.boxes[b]?.elim [] Falling.collected

/-- The boxes of a file have been registered. -/
def State.register (s : State) (file : Held) : State :=
  { s with boxes := s.boxes.mapIdx fun b f =>
      if b ∈ file.boxes then { f with stage := .registered } else f }

/-- All three boxes have been made. -/
def Held.Made (file : Held) : Prop := file.phase = .making ∧ file.boxes.length = 3

/-- What is asked of the table: room for the pages of a file, granted or not, and at a
rotation room for a slot, if the box has none yet. -/
inductive Event
  | quiet
  | registers (count : ℕ) (granted : Bool)
  | rotates (b count : ℕ) (reserved : Option Bool)

/-- What a rotation asks for. -/
def asked (count : ℕ) (w : ProcessWatchdog) : Option Slot → Option Bool
  | none => some ((w.reserveSlot count).2 ≠ -1)
  | some _ => none

/-- The box falls: the scheduler has it. -/
structure Falling.Falls (f : Falling) : Prop where
  removed : f.box.removed = false
  stopped : f.stopped = false

/-- The box after a rotation. -/
def Falling.rotate (f : Falling) (box : ChunkedSecureBox) (slot : Slot) : Falling :=
  { f with
    box := box
    slot := some slot
    rotating := false
    stage := f.stage.rotated
    rotations := f.rotations + 1 }

/-- One step of anyone.  A hop that rotates takes two steps, and so does reading the guards
of a box.  `_on_new_guard` does not raise.  An exception out of a hop, or out of a call that
makes a box, leaves the boxes as they are. -/
inductive Step (P : Primitives) (trustGroup : Bool) : State → Event → State → Prop
  | save {s : State} : Step P trustGroup s .quiet { s with files := s.files ++ [⟨[], .making⟩] }
  | make {s : State} {h : ℕ} {file : Held} {source : Source} {env : InitEnv} {data : Bytes}
      {chunkSize : ℕ} {box : ChunkedSecureBox} :
      s.files[h]? = some file → file.phase = .making → file.boxes.length < 3 →
      construct source P env data chunkSize trustGroup true = .ok box →
      Step P trustGroup s .quiet
        ({ s with boxes := s.boxes ++ [Falling.new box] }.setFile h
          { file with boxes := file.boxes ++ [s.boxes.length] })
  | makeRaises {s : State} {h : ℕ} {file : Held} {source : Source} {env : InitEnv} {data : Bytes}
      {chunkSize : ℕ} {e : PyError} :
      s.files[h]? = some file → file.phase = .making → file.boxes.length < 3 →
      construct source P env data chunkSize trustGroup true = .error e →
      Step P trustGroup s .quiet (s.setFile h { file with phase := .raised })
  | readCurrent {s : State} {file : Held} {b : ℕ} {f : Falling} : file ∈ s.files → file.Made →
      b ∈ file.boxes → s.boxes[b]? = some f → f.stage = .unread →
      Step P trustGroup s .quiet (s.setBox b
        { f with stage := .current f.rotating, collected := f.currentRegions })
  | readNext {s : State} {b : ℕ} {f : Falling} {promoted : Bool} :
      s.boxes[b]? = some f → f.stage = .current promoted →
      Step P trustGroup s .quiet (s.setBox b
        { f with
          stage := .guards, collected := f.collected ++ f.box.nextRegions, rotations := 0 })
  | readPools {s : State} {b : ℕ} {f : Falling} : s.boxes[b]? = some f → f.stage = .guards →
      Step P trustGroup s .quiet (s.setBox b
        { f with stage := .all, collected := f.collected ++ f.box.pools.map ChunkPool.region })
  | register {s : State} {h : ℕ} {file : Held} {w : ProcessWatchdog} :
      s.files[h]? = some file → file.Made →
      (∀ b ∈ file.boxes, ∃ f, s.boxes[b]? = some f ∧ f.stage = .all) →
      s.watchdog.addRegions (s.collected file) = some w →
      Step P trustGroup s (.registers (s.collected file).length true)
        (({ s with watchdog := w }.register file).setFile h { file with phase := .held })
  | registerRaises {s : State} {h : ℕ} {file : Held} : s.files[h]? = some file → file.Made →
      (∀ b ∈ file.boxes, ∃ f, s.boxes[b]? = some f ∧ f.stage = .all) →
      s.watchdog.addRegions (s.collected file) = none →
      Step P trustGroup s (.registers (s.collected file).length false)
        (s.setFile h { file with phase := .raised })
  | bounce {s : State} {b : ℕ} {f : Falling} {cell : ℕ × ℕ} : s.boxes[b]? = some f →
      Step P trustGroup s .quiet (s.setBox b { f with box := f.box.bounce cell })
  | hop {s : State} {b : ℕ} {f : Falling} {env : HopEnv} : s.boxes[b]? = some f → f.Falls →
      f.rotating = false → env.callback = .ok () → (f.box.hop P env).outcome = .ok () →
      (f.box.hop P env).announced = none →
      Step P trustGroup s .quiet (s.setBox b { f with box := (f.box.hop P env).box })
  | promote {s : State} {b : ℕ} {f : Falling} : s.boxes[b]? = some f → f.Falls →
      f.rotating = false → f.box.Completing →
      Step P trustGroup s .quiet (s.setBox b { f with rotating := true })
  | rotate {s : State} {b : ℕ} {f : Falling} {env : HopEnv} {regions : List Region} :
      s.boxes[b]? = some f → f.Falls → f.rotating = true → env.callback = .ok () →
      (f.box.hop P env).outcome = .ok () → (f.box.hop P env).announced = some regions →
      Step P trustGroup s (.rotates b regions.length (asked regions.length s.watchdog f.slot))
        ({ s with watchdog := (onNewGuard regions s.watchdog f.slot).1 }.setBox b
          (f.rotate (f.box.hop P env).box (onNewGuard regions s.watchdog f.slot).2))
  | hopRaises {s : State} {b : ℕ} {f : Falling} {env : HopEnv} {e : PyError} :
      s.boxes[b]? = some f → f.Falls → f.rotating = true → env.callback = .ok () →
      (f.box.hop P env).outcome = .error e →
      Step P trustGroup s .quiet
        (s.setBox b { f with box := (f.box.hop P env).box, stopped := true })
  | forget {s : State} {h : ℕ} {file : Held} : s.files[h]? = some file → file.phase = .held →
      Step P trustGroup s .quiet (s.setFile h { file with phase := .forgotten })
  | collapse {s : State} {file : Held} {b : ℕ} {f : Falling} : file ∈ s.files →
      file.phase = .forgotten → b ∈ file.boxes → s.boxes[b]? = some f →
      (f.rotating = true → f.stopped = true) →
      Step P trustGroup s .quiet (s.setBox b { f with box := f.box.collapse })

variable {P : Primitives} {trustGroup : Bool}

/-! ### What the table is asked for -/

/-- The entries that are asked for. -/
def Event.demand : Event → ℕ
  | .quiet => 0
  | .registers count _ => count
  | .rotates _ count (some _) => count
  | .rotates _ _ none => 0

/-- "region table full", or an index of -1. -/
def Event.Refused : Event → Prop
  | .registers _ granted => granted = false
  | .rotates _ _ reserved => reserved = some false
  | .quiet => False

/-- All that is asked for in a run. -/
def demand (events : List Event) : ℕ := (events.map Event.demand).sum

theorem demand_append (events : List Event) (event : Event) :
    demand (events ++ [event]) = demand events + event.demand := by
  simp [demand]

@[simp] theorem regionCount_onNewGuard (regions : List Region) (w : ProcessWatchdog)
    (slot : Option Slot) :
    (onNewGuard regions w slot).1.regionCount = (takeSlot regions.length w slot).1.regionCount := by
  unfold onNewGuard
  dsimp only
  split
  · exact ProcessWatchdog.regionCount_updateSlot ..
  · rfl

/-- A refused request would not have fitted. -/
theorem Step.refused {s t : State} {event : Event} (h : Step P trustGroup s event t)
    (hrefused : event.Refused) : maxRegions < s.watchdog.regionCount + event.demand := by
  cases h with
  | registerRaises _ _ _ hfull => exact ProcessWatchdog.addRegions_none hfull
  | register => exact nomatch hrefused
  | @rotate b f env regions _ _ _ _ _ _ =>
    cases hslot : f.slot with
    | some slot =>
      rw [hslot] at hrefused
      exact nomatch hrefused
    | none =>
      rw [hslot] at hrefused
      obtain ⟨hfull, -⟩ | ⟨-, hroom⟩ :=
        ProcessWatchdog.reserveSlot_cases s.watchdog regions.length
      · exact hfull
      · change some (decide _) = some false at hrefused
        rw [hroom] at hrefused
        simp at hrefused
  | _ => exact hrefused.elim

/-- A request that is not refused moves the cursor by what it asks for, within the table. -/
theorem Step.granted {s t : State} {event : Event} (h : Step P trustGroup s event t)
    (hgranted : ¬ event.Refused) :
    t.watchdog.regionCount = s.watchdog.regionCount + event.demand ∧
      (s.watchdog.regionCount ≤ maxRegions → t.watchdog.regionCount ≤ maxRegions) := by
  cases h with
  | registerRaises => exact absurd rfl hgranted
  | register _ _ _ hroom =>
    obtain ⟨hle, rfl⟩ := ProcessWatchdog.addRegions_some hroom
    exact ⟨rfl, fun _ => hle⟩
  | @rotate b f env regions _ _ _ _ _ _ =>
    cases hslot : f.slot with
    | some slot =>
      show (onNewGuard _ _ _).1.regionCount = _ ∧ (_ → (onNewGuard _ _ _).1.regionCount ≤ _)
      rw [regionCount_onNewGuard]
      exact ⟨rfl, id⟩
    | none =>
      rw [hslot] at hgranted
      show (onNewGuard _ _ _).1.regionCount = _ ∧ (_ → (onNewGuard _ _ _).1.regionCount ≤ _)
      rw [regionCount_onNewGuard]
      obtain ⟨-, hfull⟩ | ⟨hle, hroom⟩ :=
        ProcessWatchdog.reserveSlot_cases s.watchdog regions.length
      · refine absurd ?_ hgranted
        show some (decide _) = some false
        rw [hfull]
        rfl
      · rw [takeSlot, hroom]
        exact ⟨rfl, fun _ => hle⟩
  | _ => exact ⟨rfl, id⟩

/-- Without a refusal, the cursor is where the requests have moved it. -/
theorem regionCount_of_granted {events : List Event} {s : State}
    (hrun : Run (Step P trustGroup) start events s)
    (hgranted : ∀ event ∈ events, ¬ event.Refused) :
    s.watchdog.regionCount = demand events ∧ s.watchdog.regionCount ≤ maxRegions := by
  induction hrun with
  | nil => exact ⟨rfl, Nat.zero_le _⟩
  | snoc _ hstep ih =>
    obtain ⟨hdemand, hle⟩ := ih fun event h => hgranted event (List.mem_append_left _ h)
    obtain ⟨hnext, hkept⟩ := hstep.granted
      (hgranted _ (List.mem_append_right _ (List.mem_singleton.mpr rfl)))
    exact ⟨by rw [hnext, hdemand, demand_append], hkept hle⟩

/-- **What fills the table.**  No request of a run is refused, neither by `save` nor by a
rotation, exactly when the table has room for the pages of all files ever saved and a slot
for every box that ever rotated. -/
theorem refused_iff {events : List Event} {s : State}
    (hrun : Run (Step P trustGroup) start events s) :
    (∀ event ∈ events, ¬ event.Refused) ↔ demand events ≤ maxRegions := by
  constructor
  · intro hgranted
    obtain ⟨hdemand, hle⟩ := regionCount_of_granted hrun hgranted
    rwa [← hdemand]
  · intro hroom
    induction hrun with
    | nil => exact fun event h => nomatch h
    | @snoc events t u last hrun hstep ih =>
      rw [demand_append] at hroom
      have hbefore := ih (le_trans (Nat.le_add_right _ _) hroom)
      have hcount := (regionCount_of_granted hrun hbefore).1
      intro event hmem
      rcases List.mem_append.mp hmem with hmem | hmem
      · exact hbefore event hmem
      · obtain rfl := List.mem_singleton.mp hmem
        intro hrefused
        have := hstep.refused hrefused
        omega

/-! ### A file is saved and forgotten -/

/-- A box that some call of `_hold` makes. -/
def Makes (P : Primitives) (trustGroup : Bool) (box : ChunkedSecureBox) : Prop :=
  ∃ source env data chunkSize, construct source P env data chunkSize trustGroup true = .ok box

/-- A box whose pages have been read while it did not rotate. -/
def Falling.read (f : Falling) : Falling :=
  { f with stage := .all, collected := f.box.regions, rotations := 0 }

variable {C : State → Event → Prop} {s : State}

theorem getElem?_setBox {b : ℕ} {f : Falling} (f' : Falling) (hf : s.boxes[b]? = some f) :
    (s.setBox b f').boxes[b]? = some f' :=
  List.getElem?_set_self (List.getElem?_eq_some_iff.mp hf).1

theorem setBox_setBox (s : State) (b : ℕ) (f f' : Falling) :
    (s.setBox b f).setBox b f' = s.setBox b f' := by
  simp [State.setBox]

/-- The pages of a box are read in three steps. -/
theorem read_run (hC : ∀ t : State, t.files = s.files → C t .quiet) {file : Held} {b : ℕ}
    {f : Falling} (hmem : file ∈ s.files) (hmade : file.Made) (hb : b ∈ file.boxes)
    (hf : s.boxes[b]? = some f) (hstage : f.stage = .unread) (hrotating : f.rotating = false) :
    Run (Guarded (Step P trustGroup) C) s [.quiet, .quiet, .quiet] (s.setBox b f.read) := by
  have hcurrent : f.currentRegions = f.box.currentRegions := by
    rw [Falling.currentRegions, hrotating]
    rfl
  have h₁ : Step P trustGroup s .quiet _ := .readCurrent hmem hmade hb hf hstage
  have hf₁ := getElem?_setBox
    { f with stage := .current f.rotating, collected := f.currentRegions } hf
  have h₂ : Step P trustGroup _ .quiet _ := .readNext hf₁ rfl
  have hf₂ := getElem?_setBox
    { f with
      stage := .guards, collected := f.currentRegions ++ f.box.nextRegions, rotations := 0 } hf₁
  have h₃ : Step P trustGroup _ .quiet _ := .readPools hf₂ rfl
  rw [hcurrent] at h₁ h₂ h₃
  rw [setBox_setBox] at h₂
  rw [setBox_setBox, setBox_setBox] at h₃
  exact ((Run.single ⟨h₁, hC _ rfl⟩).snoc ⟨h₂, hC _ rfl⟩).snoc ⟨h₃, hC _ rfl⟩

/-- The state in the middle of a call of `_hold` that has made these boxes. -/
def State.saving (s : State) (made : List Falling) (bs : List ℕ) : State :=
  { s with boxes := s.boxes ++ made, files := s.files ++ [⟨bs, .making⟩] }

theorem make_step {made : List Falling} {bs : List ℕ} {box : ChunkedSecureBox}
    (h : Makes P trustGroup box) (hbs : bs.length < 3) :
    Step P trustGroup (s.saving made bs) .quiet
      (s.saving (made ++ [.new box]) (bs ++ [s.boxes.length + made.length])) := by
  obtain ⟨_, _, _, _, h⟩ := h
  have hfile : (s.saving made bs).files[s.files.length]? = some ⟨bs, .making⟩ :=
    List.getElem?_concat_length
  have hstep := Step.make hfile rfl hbs h
  simpa [State.saving, State.setFile] using hstep

theorem read_saving {made : List Falling} {bs : List ℕ} {i : ℕ} {f : Falling}
    (hC : ∀ t : State, t.files = s.files ++ [⟨bs, .making⟩] → C t .quiet)
    (hbs : bs.length = 3) (hb : s.boxes.length + i ∈ bs) (hf : made[i]? = some f)
    (hstage : f.stage = .unread) (hrotating : f.rotating = false) :
    Run (Guarded (Step P trustGroup) C) (s.saving made bs) [.quiet, .quiet, .quiet]
      (s.saving (made.set i f.read) bs) := by
  have hget : (s.saving made bs).boxes[s.boxes.length + i]? = some f := by
    rw [State.saving, List.getElem?_append_right (Nat.le_add_right _ _), Nat.add_sub_cancel_left,
      hf]
  have hmem : ⟨bs, .making⟩ ∈ (s.saving made bs).files :=
    List.mem_append_right _ (List.mem_singleton.mpr rfl)
  have hrun : Run (Guarded (Step P trustGroup) C) _ _ _ :=
    read_run hC hmem ⟨rfl, hbs⟩ hb hget hstage hrotating
  have hset : (s.saving made bs).setBox (s.boxes.length + i) f.read
      = s.saving (made.set i f.read) bs := by
    rw [State.setBox, State.saving, State.saving,
      List.set_append_right _ _ (Nat.le_add_right _ _), Nat.add_sub_cancel_left]
  rwa [hset] at hrun

/-- The state after a new file's boxes have been made and read. -/
def State.hold (s : State) (b₀ b₁ b₂ : ChunkedSecureBox) : State :=
  s.saving [(Falling.new b₀).read, (Falling.new b₁).read, (Falling.new b₂).read]
    [s.boxes.length, s.boxes.length + 1, s.boxes.length + 2]

/-- `_hold`, up to the call of `add_regions`, while no box rotates. -/
theorem hold_run (hC₀ : C s .quiet)
    (hC : ∀ (t : State) bs, t.files = s.files ++ [⟨bs, .making⟩] → C t .quiet)
    {b₀ b₁ b₂ : ChunkedSecureBox} (h₀ : Makes P trustGroup b₀) (h₁ : Makes P trustGroup b₁)
    (h₂ : Makes P trustGroup b₂) :
    Run (Guarded (Step P trustGroup) C) s (List.replicate 13 .quiet) (s.hold b₀ b₁ b₂) := by
  set n := s.boxes.length
  have hsave : Step P trustGroup s .quiet (s.saving [] []) := by
    have hstep : Step P trustGroup s .quiet _ := .save
    simpa [State.saving] using hstep
  have hmake₀ : Step P trustGroup (s.saving [] []) .quiet (s.saving [.new b₀] [n]) :=
    make_step h₀ (by simp)
  have hmake₁ : Step P trustGroup (s.saving [.new b₀] [n]) .quiet
      (s.saving [.new b₀, .new b₁] [n, n + 1]) := make_step h₁ (by simp)
  have hmake₂ : Step P trustGroup (s.saving [.new b₀, .new b₁] [n, n + 1]) .quiet
      (s.saving [.new b₀, .new b₁, .new b₂] [n, n + 1, n + 2]) := make_step h₂ (by simp)
  have hmade : Run (Guarded (Step P trustGroup) C) s _ _ :=
    (((Run.single ⟨hsave, hC₀⟩).snoc ⟨hmake₀, hC _ _ rfl⟩).snoc ⟨hmake₁, hC _ _ rfl⟩).snoc
      ⟨hmake₂, hC _ _ rfl⟩
  have hread : ∀ (made : List Falling) (i : ℕ) (box : ChunkedSecureBox), i < 3 →
      made[i]? = some (.new box) →
      Run (Guarded (Step P trustGroup) C) (s.saving made [n, n + 1, n + 2])
        [.quiet, .quiet, .quiet] (s.saving (made.set i (Falling.new box).read) [n, n + 1, n + 2]) :=
    fun made i box hi hbox =>
      read_saving (hC · _) rfl (by interval_cases i <;> simp [n]) hbox rfl rfl
  have hread₀ := hread [.new b₀, .new b₁, .new b₂] 0 b₀ (by decide) rfl
  have hread₁ := hread [(Falling.new b₀).read, .new b₁, .new b₂] 1 b₁ (by decide) rfl
  have hread₂ := hread [(Falling.new b₀).read, (Falling.new b₁).read, .new b₂] 2 b₂
    (by decide) rfl
  exact ((hmade.trans hread₀).trans hread₁).trans hread₂

theorem collected_hold (s : State) (b₀ b₁ b₂ : ChunkedSecureBox) :
    (s.hold b₀ b₁ b₂).collected
        ⟨[s.boxes.length, s.boxes.length + 1, s.boxes.length + 2], .making⟩
      = b₀.regions ++ b₁.regions ++ b₂.regions := by
  simp [State.collected, State.hold, State.saving, Falling.read, Falling.new]

theorem boxes_hold (s : State) (b₀ b₁ b₂ : ChunkedSecureBox) :
    ∀ b ∈ [s.boxes.length, s.boxes.length + 1, s.boxes.length + 2],
      ∃ f, (s.hold b₀ b₁ b₂).boxes[b]? = some f ∧ f.stage = .all := by
  simp [State.hold, State.saving, Falling.read]

/-- A box whose pages have been registered while it did not rotate. -/
def Falling.registered (box : ChunkedSecureBox) : Falling :=
  { (Falling.new box).read with stage := .registered }

/-- The state after a new file has been saved. -/
def State.held (s : State) (w : ProcessWatchdog) (b₀ b₁ b₂ : ChunkedSecureBox) : State where
  watchdog := w
  boxes := s.boxes ++ [.registered b₀, .registered b₁, .registered b₂]
  files := s.files ++ [⟨[s.boxes.length, s.boxes.length + 1, s.boxes.length + 2], .held⟩]

theorem register_hold (s : State) (w : ProcessWatchdog) (b₀ b₁ b₂ : ChunkedSecureBox) :
    ({ s.hold b₀ b₁ b₂ with watchdog := w }.register
        ⟨[s.boxes.length, s.boxes.length + 1, s.boxes.length + 2], .making⟩).setFile s.files.length
        ⟨[s.boxes.length, s.boxes.length + 1, s.boxes.length + 2], .held⟩
      = s.held w b₀ b₁ b₂ := by
  have hold : s.boxes.mapIdx (fun b f =>
      if b ∈ [s.boxes.length, s.boxes.length + 1, s.boxes.length + 2]
      then { f with stage := Stage.registered } else f) = s.boxes := by
    refine List.ext_getElem (by simp) fun b hb hb' => ?_
    rw [List.getElem_mapIdx, if_neg]
    simp
    omega
  simp only [State.hold, State.saving, State.register, State.setFile, State.held,
    List.mapIdx_append, hold]
  simp [Falling.registered, Falling.read, Falling.new]
  omega

/-- The call of `add_regions` at the end of `_hold`. -/
theorem register_step {w : ProcessWatchdog} {b₀ b₁ b₂ : ChunkedSecureBox}
    (h : s.watchdog.addRegions (b₀.regions ++ b₁.regions ++ b₂.regions) = some w) :
    Step P trustGroup (s.hold b₀ b₁ b₂)
      (.registers (b₀.regions ++ b₁.regions ++ b₂.regions).length true) (s.held w b₀ b₁ b₂) := by
  have hfile : (s.hold b₀ b₁ b₂).files[s.files.length]? = some
      ⟨[s.boxes.length, s.boxes.length + 1, s.boxes.length + 2], .making⟩ :=
    List.getElem?_concat_length
  rw [← collected_hold, ← register_hold]
  refine .register hfile ⟨rfl, rfl⟩ (boxes_hold s b₀ b₁ b₂) ?_
  rw [collected_hold]
  exact h

/-- The same call when the table is full. -/
theorem raise_step {b₀ b₁ b₂ : ChunkedSecureBox}
    (h : s.watchdog.addRegions (b₀.regions ++ b₁.regions ++ b₂.regions) = none) :
    Step P trustGroup (s.hold b₀ b₁ b₂)
      (.registers (b₀.regions ++ b₁.regions ++ b₂.regions).length false)
      ((s.hold b₀ b₁ b₂).setFile s.files.length
        ⟨[s.boxes.length, s.boxes.length + 1, s.boxes.length + 2], .raised⟩) := by
  have hfile : (s.hold b₀ b₁ b₂).files[s.files.length]? = some
      ⟨[s.boxes.length, s.boxes.length + 1, s.boxes.length + 2], .making⟩ :=
    List.getElem?_concat_length
  rw [← collected_hold]
  refine .registerRaises hfile ⟨rfl, rfl⟩ (boxes_hold s b₀ b₁ b₂) ?_
  rw [collected_hold]
  exact h

/-! ### Filling the table up -/

/-- A file that is being saved or is held. -/
def Held.Live (file : Held) : Prop := file.phase = .making ∨ file.phase = .held

instance : DecidablePred Held.Live := fun _ => inferInstanceAs (Decidable (_ ∨ _))

/-- At most `L` files are held or being saved. -/
def AtMost (L : ℕ) (s : State) (_ : Event) : Prop := s.files.countP (·.Live) ≤ L

/-- The entries that a file needs: those for its pages, and a slot for each of its boxes. -/
def State.worth (s : State) (file : Held) : ℕ :=
  (file.boxes.map fun b =>
    s.boxes[b]?.elim 0 fun f => f.box.regions.length + f.box.nextRegions.length).sum

/-- Pages from an address on, for the cells of a guard. -/
def pagesAt (base i : ℕ) : ℕ × ℕ := (base + 2 * i * pageSize, base + (2 * i + 1) * pageSize)

/-- What a construction gets that maps its pages from an address on. -/
def sampleEnv (base : ℕ) : InitEnv :=
  { InitEnv.sample with
    currentPages := pagesAt base
    nextPages := pagesAt (base + 176 * pageSize)
    poolAddr := fun _ => base + 352 * pageSize }

/-- A box with 88 cells in a guard and one pool, in low memory. -/
structure Sized (box : ChunkedSecureBox) : Prop where
  regions : box.regions.length = 353
  nextRegions : box.nextRegions.length = 176
  below : ∀ region ∈ box.regions, region.1 < 2 ^ 24

instance (box : ChunkedSecureBox) : Decidable (Sized box) :=
  decidable_of_iff (box.regions.length = 353 ∧ box.nextRegions.length = 176 ∧
      ∀ region ∈ box.regions, region.1 < 2 ^ 24)
    ⟨fun ⟨h, h', h''⟩ => ⟨h, h', h''⟩, fun ⟨h, h', h''⟩ => ⟨h, h', h''⟩⟩

theorem Sized.collapse {box : ChunkedSecureBox} (h : Sized box) : Sized box.collapse := by
  obtain ⟨hcurrent, hnext⟩ := ChunkedSecureBox.regions_of_collapse box
  have hregions : box.collapse.regions = box.regions := by
    rw [ChunkedSecureBox.regions_eq, ChunkedSecureBox.regions_eq, hcurrent, hnext]
    congr 1
    exact List.map_map.trans (List.map_congr_left fun _ _ => rfl)
  exact ⟨hregions ▸ h.regions, hnext ▸ h.nextRegions, hregions ▸ h.below⟩

/-- The three boxes of a small file. -/
def sampleConstruct (i : Fin 3) : Except PyError ChunkedSecureBox :=
  construct .bytes Primitives.xzSample (sampleEnv (i * 2 ^ 21)) [1, 2, 3] 262144 false true

theorem sized_sampleConstruct : ∀ i, (sampleConstruct i).toOption.any fun box => Sized box := by
  decide +kernel

theorem sampleBox (i : Fin 3) : ∃ box, sampleConstruct i = .ok box ∧ Sized box := by
  have h := sized_sampleConstruct i
  cases hbox : sampleConstruct i with
  | error e =>
    rw [hbox] at h
    exact nomatch h
  | ok box =>
    rw [hbox] at h
    exact ⟨box, rfl, of_decide_eq_true h⟩

theorem makes_sampleBox {i : Fin 3} {box : ChunkedSecureBox} (h : sampleConstruct i = .ok box) :
    Makes Primitives.xzSample false box := ⟨_, _, _, _, h⟩

/-- The boxes of a forgotten file are collapsed one after another. -/
theorem collapse_run (hC : ∀ t : State, t.files = s.files → C t .quiet) {file : Held}
    (hmem : file ∈ s.files) (hphase : file.phase = .forgotten) (bs : List ℕ)
    (hbs : ∀ b ∈ bs, b ∈ file.boxes ∧ ∃ f, s.boxes[b]? = some f ∧ f.rotating = false)
    (hsized : ∀ f ∈ s.boxes, Sized f.box) :
    ∃ events t, Run (Guarded (Step P trustGroup) C) s events t ∧ t.watchdog = s.watchdog ∧
      t.files = s.files ∧ ∀ f ∈ t.boxes, Sized f.box := by
  induction bs generalizing s with
  | nil => exact ⟨[], s, Run.nil, rfl, rfl, hsized⟩
  | cons b bs ih =>
    obtain ⟨hb, f, hf, hrotating⟩ := hbs b List.mem_cons_self
    have hstep : Step P trustGroup s .quiet (s.setBox b { f with box := f.box.collapse }) :=
      .collapse hmem hphase hb hf fun h => nomatch hrotating.symm.trans h
    have hbs' : ∀ d ∈ bs, d ∈ file.boxes ∧
        ∃ g, (s.setBox b { f with box := f.box.collapse }).boxes[d]? = some g ∧
          g.rotating = false := by
      intro d hd
      obtain ⟨hd, g, hg, hrot⟩ := hbs d (List.mem_cons_of_mem _ hd)
      refine ⟨hd, ?_⟩
      by_cases hbd : b = d
      · subst hbd
        exact ⟨_, getElem?_setBox _ hf, hrotating⟩
      · exact ⟨g, by rw [State.setBox, List.getElem?_set_ne hbd, hg], hrot⟩
    have hsized' : ∀ g ∈ (s.setBox b { f with box := f.box.collapse }).boxes, Sized g.box := by
      intro g hg
      rcases List.mem_or_eq_of_mem_set hg with hg | rfl
      · exact hsized g hg
      · exact (hsized f (List.mem_of_getElem? hf)).collapse
    obtain ⟨events, t, hrun, hrest⟩ := ih (s := s.setBox b { f with box := f.box.collapse })
      hC hmem hbs' hsized'
    exact ⟨_, t, (Run.single ⟨hstep, hC s rfl⟩).trans hrun, hrest⟩

/-- Every file has been forgotten, and the cursor stands at `c`. -/
structure Idle (c : ℕ) (s : State) : Prop where
  count : s.watchdog.regionCount = c
  forgotten : ∀ file ∈ s.files, file.phase = .forgotten ∧ file.boxes.length ≤ 3
  sized : ∀ f ∈ s.boxes, Sized f.box

theorem Idle.atMost {c L : ℕ} (h : Idle c s) (event : Event) : AtMost L s event := by
  have hzero : s.files.countP (·.Live) = 0 := by
    refine List.countP_eq_zero.mpr fun file hfile hlive => ?_
    have hphase := (h.forgotten file hfile).1
    rcases of_decide_eq_true hlive with hlive | hlive
    · exact nomatch hphase.symm.trans hlive
    · exact nomatch hphase.symm.trans hlive
  rw [AtMost, hzero]
  exact Nat.zero_le L

/-- One more file makes one. -/
theorem Idle.atMost_one {c : ℕ} (h : Idle c s) {t : State} {file : Held}
    (ht : t.files = s.files ++ [file]) (event : Event) : AtMost 1 t event := by
  have hnone : s.files.countP (·.Live) ≤ 0 := h.atMost event
  rw [AtMost, ht, List.countP_append]
  have hone : [file].countP (·.Live) ≤ 1 := List.countP_le_length
  omega

theorem Sized.length {b₀ b₁ b₂ : ChunkedSecureBox} (h₀ : Sized b₀) (h₁ : Sized b₁)
    (h₂ : Sized b₂) : (b₀.regions ++ b₁.regions ++ b₂.regions).length = 1059 := by
  rw [List.length_append, List.length_append, h₀.regions, h₁.regions, h₂.regions]

theorem sized_append {boxes : List Falling} (h : ∀ f ∈ boxes, Sized f.box) {f₀ f₁ f₂ : Falling}
    (h₀ : Sized f₀.box) (h₁ : Sized f₁.box) (h₂ : Sized f₂.box) :
    ∀ f ∈ boxes ++ [f₀, f₁, f₂], Sized f.box := by
  intro f hf
  rcases List.mem_append.mp hf with hold | hnew
  · exact h f hold
  · simp only [List.mem_cons, List.not_mem_nil, or_false] at hnew
    rcases hnew with rfl | rfl | rfl
    · exact h₀
    · exact h₁
    · exact h₂

/-- A file is saved and forgotten, and its entries stay. -/
theorem Idle.cycle {c : ℕ} (h : Idle c s) (hroom : c + 1059 ≤ maxRegions) :
    ∃ events t, Run (Guarded (Step Primitives.xzSample false) (AtMost 1)) s events t ∧
      Idle (c + 1059) t := by
  obtain ⟨b₀, hb₀, h₀⟩ := sampleBox 0
  obtain ⟨b₁, hb₁, h₁⟩ := sampleBox 1
  obtain ⟨b₂, hb₂, h₂⟩ := sampleBox 2
  have hlen := h₀.length h₁ h₂
  obtain ⟨w, hw⟩ : ∃ w, s.watchdog.addRegions (b₀.regions ++ b₁.regions ++ b₂.regions)
      = some w := by
    refine ⟨_, if_neg ?_⟩
    rw [hlen, h.count]
    exact Nat.not_lt.mpr hroom
  obtain ⟨-, hcount⟩ := ProcessWatchdog.addRegions_some hw
  have hhold := hold_run (h.atMost _) (fun t bs ht => h.atMost_one ht _) (makes_sampleBox hb₀)
    (makes_sampleBox hb₁) (makes_sampleBox hb₂)
  have hregister := hhold.snoc ⟨register_step hw, h.atMost_one rfl _⟩
  -- forgetting it
  set file : Held := ⟨[s.boxes.length, s.boxes.length + 1, s.boxes.length + 2], .held⟩ with hfile
  have hlast : (s.held w b₀ b₁ b₂).files[s.files.length]? = some file :=
    List.getElem?_concat_length
  have hforget := hregister.snoc ⟨.forget hlast rfl, h.atMost_one rfl _⟩
  have hfiles : ((s.held w b₀ b₁ b₂).setFile s.files.length
      { file with phase := .forgotten }).files
        = s.files ++ [{ file with phase := .forgotten }] := by
    simp [State.setFile, State.held]
  have hmem : { file with phase := .forgotten } ∈ ((s.held w b₀ b₁ b₂).setFile s.files.length
      { file with phase := .forgotten }).files := by
    rw [hfiles]
    exact List.mem_append_right _ (List.mem_singleton.mpr rfl)
  have hboxes : ∀ b ∈ file.boxes, b ∈ file.boxes ∧
      ∃ f, ((s.held w b₀ b₁ b₂).setFile s.files.length
        { file with phase := .forgotten }).boxes[b]? = some f ∧ f.rotating = false := by
    simp [hfile, State.setFile, State.held, Falling.registered, Falling.read, Falling.new]
  have hsized : ∀ f ∈ (s.held w b₀ b₁ b₂).boxes, Sized f.box :=
    sized_append h.sized h₀ h₁ h₂
  obtain ⟨events, t, hcollapse, hwatchdog, hkept, hsized'⟩ := collapse_run
    (fun t ht => h.atMost_one (ht.trans hfiles) .quiet) hmem rfl file.boxes hboxes hsized
  refine ⟨_, t, hforget.trans hcollapse, ?_, fun file' hfile' => ?_, hsized'⟩
  · rw [hwatchdog]
    show w.regionCount = _
    rw [hcount, hlen, h.count]
  · rw [hkept, hfiles] at hfile'
    rcases List.mem_append.mp hfile' with hold | hnew
    · exact h.forgotten file' hold
    · rw [List.mem_singleton.mp hnew]
      exact ⟨rfl, le_rfl⟩

/-- Any number of files that the table has room for. -/
theorem cycles (k : ℕ) (hroom : k * 1059 ≤ maxRegions) :
    ∃ events s, Run (Guarded (Step Primitives.xzSample false) (AtMost 1)) start events s ∧
      Idle (k * 1059) s := by
  induction k with
  | zero =>
    exact ⟨[], start, Run.nil, rfl, fun _ h => (nomatch h), fun _ h => (nomatch h)⟩
  | succ k ih =>
    rw [Nat.succ_mul] at hroom ⊢
    obtain ⟨events, s, hrun, hidle⟩ := ih (le_trans (Nat.le_add_right _ _) hroom)
    obtain ⟨more, t, hcycle, ht⟩ := hidle.cycle hroom
    exact ⟨_, t, hrun.trans hcycle, ht⟩

theorem refused_iff_cycle :
    ∃ events s, Run (Step Primitives.xzSample false) start events s ∧ 0 < s.watchdog.regionCount ∧
      ((∀ event ∈ events, ¬ event.Refused) ↔ demand events ≤ maxRegions) := by
  obtain ⟨events, s, hrun, hidle⟩ := cycles 1 (by decide)
  have hrun' : Run (Step Primitives.xzSample false) start events s := hrun.mono fun h => h.1
  refine ⟨events, s, hrun', ?_, refused_iff hrun'⟩
  rw [hidle.count]
  decide

/-- The boxes of a file of this size need 1587 entries at most. -/
theorem worth_le {file : Held} (hboxes : ∀ f ∈ s.boxes, Sized f.box)
    (hfile : file.boxes.length ≤ 3) : s.worth file ≤ 1587 := by
  have hbox : ∀ n ∈ file.boxes.map fun b => s.boxes[b]?.elim 0 fun f =>
      f.box.regions.length + f.box.nextRegions.length, n ≤ 529 := by
    intro n hn
    obtain ⟨b, -, rfl⟩ := List.mem_map.mp hn
    cases hb : s.boxes[b]? with
    | none => exact Nat.zero_le _
    | some f =>
      have hf := hboxes f (List.mem_of_getElem? hb)
      show f.box.regions.length + f.box.nextRegions.length ≤ 529
      rw [hf.regions, hf.nextRegions]
  have hsum := List.sum_le_card_nsmul _ _ hbox
  rw [List.length_map, smul_eq_mul] at hsum
  rw [State.worth]
  omega

/-- Small files are saved and forgotten, one at a time.  One of them needs 1587 entries at
most, but after 188 of them the next does not find room for its 1059. -/
theorem table_fills_up :
    ∃ L events s, Run (Guarded (Step Primitives.xzSample false) (AtMost L)) start events s ∧
      (∀ event, AtMost L s event) ∧ (∀ file ∈ s.files, L * s.worth file ≤ maxRegions) ∧
      ∃ event ∈ events, event.Refused := by
  obtain ⟨events, s, hrun, h⟩ := cycles 188 (by decide)
  obtain ⟨b₀, hb₀, h₀⟩ := sampleBox 0
  obtain ⟨b₁, hb₁, h₁⟩ := sampleBox 1
  obtain ⟨b₂, hb₂, h₂⟩ := sampleBox 2
  have hlen := h₀.length h₁ h₂
  have hfull : s.watchdog.addRegions (b₀.regions ++ b₁.regions ++ b₂.regions) = none := by
    refine if_pos ?_
    rw [hlen, h.count]
    decide
  have hhold := hold_run (h.atMost _) (fun t bs ht => h.atMost_one ht _) (makes_sampleBox hb₀)
    (makes_sampleBox hb₁) (makes_sampleBox hb₂)
  have hraise := hhold.snoc ⟨raise_step hfull, h.atMost_one rfl _⟩
  set file : Held := ⟨[s.boxes.length, s.boxes.length + 1, s.boxes.length + 2], .raised⟩
  have hfiles : ((s.hold b₀ b₁ b₂).setFile s.files.length file).files = s.files ++ [file] := by
    simp [State.setFile, State.hold, State.saving]
  have hsized : ∀ f ∈ (s.hold b₀ b₁ b₂).boxes, Sized f.box :=
    sized_append h.sized h₀ h₁ h₂
  refine ⟨1, _, _, hrun.trans hraise, h.atMost_one hfiles, fun file' hfile' => ?_, _,
    List.mem_append_right _ (List.mem_append_right _ (List.mem_singleton.mpr rfl)), rfl⟩
  have hthree : file'.boxes.length ≤ 3 := by
    rw [hfiles] at hfile'
    rcases List.mem_append.mp hfile' with hold | hnew
    · exact (h.forgotten file' hold).2
    · rw [List.mem_singleton.mp hnew]
      exact le_rfl
  rw [Nat.one_mul]
  exact le_trans (worth_le hsized hthree) (by decide)

end SecureVirtualStorage
