/-
`SecureVirtualStorage._hold` when something in it raises.

The three boxes of a file are made one after another, and each one makes its two guards
before its chunks.  A guard bounces from its constructor on and a box falls from the end of
its own, while `_held` gets the file at the very end, and there is no `try` on the way.

* `left_behind`: what is there after an exception, by the point where it was raised;
* `save_atomic_iff`: nothing is left exactly when that point comes before the first guard;
* `save_not_atomic`: a trust group that is out of reach leaves an open guard with a key.
-/
import Mathlib
import VStorage.Dict
import VStorage.ProcessWatchdog
import VStorage.RotationFailure
import VStorage.VirtualStorage

open ChunkedSecureBox (HopEnv HopResult InitEnv Source construct)
open SecureVirtualStorage (Slot)

/-! ### The guard made last -/

namespace ChunkedSecureBox

variable {P : Primitives} {box : ChunkedSecureBox}

/-- The next guard is open, and it has been made before any other will be. -/
structure Latest (box : ChunkedSecureBox) : Prop where
  current : box.currentGuard < box.guards.length
  next : ∃ g, box.guards[box.nextGuard]? = some g ∧ g.Open

theorem Latest.bounce (h : box.Latest) (cell : ℕ × ℕ) : (box.bounce cell).Latest where
  current := by
    show box.currentGuard < (box.guards.modify cell.1 (·.bounceCell cell.2)).length
    rw [List.length_modify]
    exact h.current
  next := open_bounce h.next cell

theorem Latest.bounces (h : box.Latest) (cells : List (ℕ × ℕ)) : (box.bounces cells).Latest := by
  induction cells generalizing box with
  | nil => exact h
  | cons cell cells ih => exact ih (h.bounce cell)

/-- A rotation collapses a guard that is not the last one. -/
theorem Latest.rotate (h : box.Latest) (env : HopEnv) (next : Bytes) :
    (box.rotate P env next).box.Latest ∧
      (box.rotate P env next).box.removed = box.removed := by
  obtain ⟨g, hnext, hopen⟩ := h.next
  have hlt := (List.getElem?_eq_some_iff.mp hnext).1
  obtain ⟨e, hrot, -⟩ | ⟨key, pages, -, -, ⟨e, -, -, hrot⟩ | ⟨-, hrot⟩⟩ :=
    rotate_cases P env next box
  · rw [hrot]
    exact ⟨⟨hlt, g, hnext, hopen⟩, rfl⟩
  · rw [hrot]
    have hnew : (box.guards ++ [SplitKeyGuard.new P key pages])[box.guards.length]?
        = some (SplitKeyGuard.new P key pages) := List.getElem?_concat_length
    refine ⟨⟨?_, _, hnew, SplitKeyGuard.open_new P key pages⟩, rfl⟩
    show box.nextGuard < (box.guards ++ [_]).length
    rw [List.length_append]
    exact Nat.lt_add_right 1 hlt
  · rw [hrot]
    refine ⟨⟨?_, SplitKeyGuard.new P key pages, ?_, SplitKeyGuard.open_new P key pages⟩, rfl⟩
    · show box.nextGuard < ((box.guards ++ [_]).modify box.currentGuard _).length
      rw [List.length_modify, List.length_append]
      exact Nat.lt_add_right 1 hlt
    · show ((box.guards ++ [_]).modify box.currentGuard _)[box.guards.length]? = _
      rw [List.getElem?_modify, List.getElem?_concat_length]
      have hne := Nat.ne_of_lt h.current
      simp [hne]

/-- However a hop ends, its next guard is open afterwards and the box is not removed by it. -/
theorem Latest.hop (h : box.Latest) (env : HopEnv) :
    (box.hop P env).box.Latest ∧ (box.hop P env).box.removed = box.removed := by
  have hremoved : (box.bounces env.between).removed = box.removed := by rw [bounces_eq]
  have hbounced := h.bounces env.between
  rw [hop_eq]
  unfold readKeys
  cases box.reconstruct P box.currentGuard with
  | error e => exact ⟨h, rfl⟩
  | ok currentKey =>
    dsimp only
    cases (box.bounces env.between).reconstruct P (box.bounces env.between).nextGuard with
    | error e => exact ⟨hbounced, hremoved⟩
    | ok nextKey =>
      dsimp only
      split
      · -- the chunk is there
        split
        · exact ⟨hbounced, hremoved⟩
        · rename_i pools _
          have hadvanced : ((box.bounces env.between).advance pools).Latest :=
            ⟨hbounced.current, hbounced.next⟩
          split
          · obtain ⟨hlatest, hsame⟩ := hadvanced.rotate (P := P) env nextKey
            exact ⟨hlatest, hsame.trans hremoved⟩
          · exact ⟨hadvanced, hremoved⟩
      · exact ⟨hbounced, hremoved⟩

/-- A box with any two open guards in the place of its own. -/
theorem latest_construct {source : Source} {env : InitEnv} {data : Bytes} {chunkSize : ℕ}
    {trustGroup onNewGuard : Bool}
    (h : construct source P env data chunkSize trustGroup onNewGuard = .ok box)
    {guards : List SplitKeyGuard} (htwo : guards.length = 2) (hopen : ∀ g ∈ guards, g.Open) :
    ({ box with guards := guards } : ChunkedSecureBox).Latest ∧ box.removed = false := by
  obtain ⟨_, _, _, -, rfl⟩ := construct_shape h
  have hlt : 1 < guards.length := by omega
  exact ⟨⟨Nat.lt_of_succ_lt hlt, guards[1], List.getElem?_eq_getElem hlt,
    hopen _ (List.getElem_mem hlt)⟩, rfl⟩

end ChunkedSecureBox

namespace SaveFailure

/-! ### The call -/

/-- `DEFAULT_CHUNK_SIZE`. -/
def defaultChunkSize : ℕ := 256 * 1024

/-- `SplitResult`.  A piece is bytes, or a file with these contents. -/
structure SplitResult where
  content : Source × Bytes
  structural : Source × Bytes
  metadata : Bytes
  reconstructFrom : Piece

/-- The pieces in the order in which `_hold` makes their boxes. -/
def SplitResult.pieces (result : SplitResult) : List (Source × Bytes) :=
  [result.content, result.structural, (.bytes, result.metadata)]

/-- The piece that `piece_size` measures. -/
def SplitResult.original (result : SplitResult) : Source × Bytes :=
  if result.reconstructFrom = .content then result.content else result.structural

/-- The arguments of a call, with the id that it draws. -/
structure Call where
  result : SplitResult
  name : String
  fileId : String

/-- What `_Held` records beside the boxes. -/
structure Recorded where
  reconstructFrom : Piece
  originalSize : ℕ
  name : String

/-- Where `_hold` raises; `k` is the number of the box, from 0. -/
inductive Point
  /-- `os.path.getsize` in `from_file`. -/
  | size (k : ℕ)
  /-- The key, and the pages of the current guard. -/
  | currentGuard (k : ℕ)
  /-- `_next_key`, which asks the trust group. -/
  | nextKey (k : ℕ)
  /-- The pages of the next guard. -/
  | nextGuard (k : ℕ)
  /-- Reading the file, compressing, encrypting, and mapping the pools. -/
  | chunks (k : ℕ)
  /-- `box.regions()`. -/
  | regions (k : ℕ)
  /-- `add_regions`. -/
  | table
  /-- `piece_size`. -/
  | pieceSize
  deriving DecidableEq

/-- The boxes that have been made by then. -/
def Point.boxes : Point → ℕ
  | .size k | .currentGuard k | .nextKey k | .nextGuard k | .chunks k => k
  | .regions _ | .table | .pieceSize => 3

/-- The guards of the box that is being made then. -/
def Point.guards : Point → ℕ
  | .nextKey _ | .nextGuard _ => 1
  | .chunks _ => 2
  | _ => 0

/-- What the call does next. -/
inductive Phase
  | make
  | sized
  | keying (env : InitEnv)
  | keyed (env : InitEnv) (next : Bytes)
  | filling (env : InitEnv)
  | collecting (k : ℕ) (regions : List Region)
  | sizing
  | recording (size : ℕ)
  | returned
  | raised (point : Point)

/-- The storage, and what the call has made: its boxes with their slots, and the guards of
the box that it is making.  A cell in `bouncing` is told by box, guard and place; the box
that is being made has the number that it will have. -/
structure State where
  held : Dict String Recorded
  watchdog : Option ProcessWatchdog
  boxes : List ChunkedSecureBox
  slots : ℕ → Option Slot
  making : List SplitKeyGuard
  falling : List ℕ
  bouncing : List (ℕ × ℕ × ℕ)
  phase : Phase

def start (held : Dict String Recorded) (watchdog : Option ProcessWatchdog) : State where
  held := held
  watchdog := watchdog
  boxes := []
  slots := fun _ => none
  making := []
  falling := []
  bouncing := []
  phase := .make

/-- The entries that `_cell_scheduler.register` makes for the guards from number `i` on. -/
def cells (b i : ℕ) (guards : List SplitKeyGuard) : List (ℕ × ℕ × ℕ) :=
  (guards.zipIdx i).flatMap fun (guard, g) =>
    (List.range guard.cells.length).map fun idx => (b, g, idx)

def State.to (s : State) (phase : Phase) : State := { s with phase := phase }

/-- One more guard of the box that is being made. -/
def State.addGuard (s : State) (guard : SplitKeyGuard) : State :=
  { s with
    making := s.making ++ [guard]
    bouncing := s.bouncing ++ cells s.boxes.length s.making.length [guard] }

/-- `_start_falling`. -/
def State.addBox (s : State) (box : ChunkedSecureBox) : State :=
  { s with
    boxes := s.boxes ++ [{ box with guards := s.making }]
    making := []
    falling := s.falling ++ [s.boxes.length] }

/-- The guards of a box, or those of the box that is being made. -/
def State.guards (s : State) (b : ℕ) : List SplitKeyGuard :=
  match s.boxes[b]? with
  | some box => box.guards
  | none => s.making

/-- One service of a cell.  An entry whose guard has been removed is not put back. -/
def State.bounce (s : State) (entry : ℕ × ℕ × ℕ) : State :=
  let (b, g, idx) := entry
  { s with
    boxes := s.boxes.modify b (·.bounce (g, idx))
    making := if b = s.boxes.length then s.making.modify g (·.bounceCell idx) else s.making
    bouncing := if (s.guards b)[g]?.any (·.removed) then s.bouncing.erase entry else s.bouncing }

/-- `_on_new_guard`, if the hop calls it. -/
def State.announce (s : State) (b : ℕ) : Option (List Region) → State
  | none => s
  | some regions =>
    match s.watchdog with
    | none => s
    | some w =>
      let (w, slot) := SecureVirtualStorage.onNewGuard regions w (s.slots b)
      { s with watchdog := some w, slots := Function.update s.slots b (some slot) }

/-- One service of a box.  A box whose hop raises is not put back. -/
def State.hop (s : State) (b : ℕ) (old : ChunkedSecureBox) (result : HopResult) : State :=
  let s := s.announce b result.announced
  { s with
    boxes := s.boxes.set b result.box
    falling := if result.outcome = .ok () then s.falling else s.falling.erase b
    bouncing := s.bouncing ++
      cells b old.guards.length (result.box.guards.drop old.guards.length) }

/-- Who takes a step. -/
inductive Actor
  | caller
  | cellScheduler
  | fallScheduler

section

variable (P : Primitives) (trustGroup : Bool) (call : Call)

/-- One step of the call, or of a scheduler with what the call has made.  Whatever is asked
of the outside may raise. -/
inductive Step : State → Actor → State → Prop
  | size {s : State} {piece : Source × Bytes} : s.phase = .make →
      call.result.pieces[s.boxes.length]? = some piece → Step s .caller (s.to .sized)
  | sizeRaises {s : State} {data : Bytes} : s.phase = .make →
      call.result.pieces[s.boxes.length]? = some (.file, data) →
      Step s .caller (s.to (.raised (.size s.boxes.length)))
  | currentGuard {s : State} (env : InitEnv) : s.phase = .sized →
      Step s .caller ((s.addGuard (SplitKeyGuard.new P env.key env.currentPages)).to (.keying env))
  | currentGuardRaises {s : State} : s.phase = .sized →
      Step s .caller (s.to (.raised (.currentGuard s.boxes.length)))
  | nextKey {s : State} {env : InitEnv} {next : Bytes} : s.phase = .keying env →
      nextKey P trustGroup env.fetch env.key = .ok next → Step s .caller (s.to (.keyed env next))
  | nextKeyRaises {s : State} {env : InitEnv} {e : PyError} : s.phase = .keying env →
      nextKey P trustGroup env.fetch env.key = .error e →
      Step s .caller (s.to (.raised (.nextKey s.boxes.length)))
  | nextGuard {s : State} {env : InitEnv} {next : Bytes} : s.phase = .keyed env next →
      Step s .caller ((s.addGuard (SplitKeyGuard.new P next env.nextPages)).to (.filling env))
  | nextGuardRaises {s : State} {env : InitEnv} {next : Bytes} : s.phase = .keyed env next →
      Step s .caller (s.to (.raised (.nextGuard s.boxes.length)))
  | chunks {s : State} {env : InitEnv} {source : Source} {data : Bytes} {box : ChunkedSecureBox} :
      s.phase = .filling env →
      call.result.pieces[s.boxes.length]? = some (source, data) →
      construct source P env data defaultChunkSize trustGroup s.watchdog.isSome = .ok box →
      Step s .caller ((s.addBox box).to .make)
  | chunksRaises {s : State} {env : InitEnv} : s.phase = .filling env →
      Step s .caller (s.to (.raised (.chunks s.boxes.length)))
  /-- `if self._watchdog`. -/
  | made {s : State} : s.phase = .make → s.boxes.length = 3 →
      Step s .caller (s.to (if s.watchdog.isSome then .collecting 0 [] else .sizing))
  | regions {s : State} {k : ℕ} {regions : List Region} {box : ChunkedSecureBox} :
      s.phase = .collecting k regions → s.boxes[k]? = some box →
      Step s .caller (s.to (.collecting (k + 1) (regions ++ box.regions)))
  | regionsRaises {s : State} {k : ℕ} {regions : List Region} {box : ChunkedSecureBox} :
      s.phase = .collecting k regions → s.boxes[k]? = some box →
      Step s .caller (s.to (.raised (.regions k)))
  | table {s : State} {regions : List Region} {w w' : ProcessWatchdog} :
      s.phase = .collecting 3 regions → s.watchdog = some w → w.addRegions regions = some w' →
      Step s .caller ({ s with watchdog := some w' }.to .sizing)
  | tableRaises {s : State} {regions : List Region} {w : ProcessWatchdog} :
      s.phase = .collecting 3 regions → s.watchdog = some w → w.addRegions regions = none →
      Step s .caller (s.to (.raised .table))
  | pieceSize {s : State} : s.phase = .sizing →
      Step s .caller (s.to (.recording call.result.original.2.length))
  | pieceSizeRaises {s : State} : s.phase = .sizing → call.result.original.1 = .file →
      Step s .caller (s.to (.raised .pieceSize))
  | record {s : State} {size : ℕ} : s.phase = .recording size →
      Step s .caller ({ s with
        held := s.held.set call.fileId ⟨call.result.reconstructFrom, size, call.name⟩ }.to
          .returned)
  | bounce {s : State} {entry : ℕ × ℕ × ℕ} : entry ∈ s.bouncing →
      Step s .cellScheduler (s.bounce entry)
  | hop {s : State} {b : ℕ} {box : ChunkedSecureBox} {env : HopEnv} : b ∈ s.falling →
      s.boxes[b]? = some box → env.callback = .ok () →
      Step s .fallScheduler (s.hop b box (box.hop P env))

end

/-- Nothing has come of the call. -/
structure Atomic (held : Dict String Recorded) (watchdog : Option ProcessWatchdog) (s : State) :
    Prop where
  held : s.held = held
  watchdog : s.watchdog = watchdog
  boxes : ∀ box ∈ s.boxes, box.removed = true ∧ (∀ g ∈ box.guards, g.Collapsed) ∧
    ∀ pool ∈ box.pools, pool.closed = true
  making : ∀ g ∈ s.making, g.Collapsed
  falling : s.falling = []
  bouncing : s.bouncing = []

/-! ### One step -/

/-- How many boxes there are in a phase, and how many guards of the next box. -/
def Phase.Fits (boxes guards : ℕ) : Phase → Prop
  | .make | .sized => guards = 0
  | .keying _ | .keyed _ _ => guards = 1
  | .filling _ => guards = 2
  | .collecting _ _ | .sizing | .recording _ | .returned => boxes = 3 ∧ guards = 0
  | .raised point => boxes = point.boxes ∧ guards = point.guards

/-- What every step keeps: everything that has been made is there and open. -/
structure Inv (held : Dict String Recorded) (watchdog : Option ProcessWatchdog) (s : State) :
    Prop where
  fits : s.phase.Fits s.boxes.length s.making.length
  boxes : ∀ box ∈ s.boxes, box.removed = false ∧ box.Latest
  making : ∀ g ∈ s.making, g.Open
  held : s.phase ≠ .returned → s.held = held
  untouched : s.boxes = [] →
    s.watchdog = watchdog ∧ s.falling = [] ∧ (s.making = [] → s.bouncing = [])

variable {P : Primitives} {trustGroup : Bool} {call : Call} {held : Dict String Recorded}
  {watchdog : Option ProcessWatchdog} {s : State}

theorem inv_start : Inv held watchdog (start held watchdog) where
  fits := rfl
  boxes := fun _ hbox => nomatch hbox
  making := fun _ hg => nomatch hg
  held := fun _ => rfl
  untouched := fun _ => ⟨rfl, rfl, fun _ => rfl⟩

theorem Inv.to (h : Inv held watchdog s) (hnot : s.phase ≠ .returned) {phase : Phase}
    (hfits : phase.Fits s.boxes.length s.making.length) : Inv held watchdog (s.to phase) :=
  ⟨hfits, h.boxes, h.making, fun _ => h.held hnot, h.untouched⟩

/-- A guard of the box that is being made. -/
theorem Inv.addGuard (h : Inv held watchdog s) (hnot : s.phase ≠ .returned)
    {guard : SplitKeyGuard} (hopen : guard.Open) {phase : Phase}
    (hfits : phase.Fits s.boxes.length (s.making.length + 1)) :
    Inv held watchdog ((s.addGuard guard).to phase) := by
  refine ⟨?_, h.boxes, ?_, fun _ => h.held hnot, fun hnone => ?_⟩
  · show phase.Fits s.boxes.length (s.making ++ [guard]).length
    rw [List.length_append]
    exact hfits
  · intro g hg
    rcases List.mem_append.mp hg with hg | hg
    · exact h.making g hg
    · rw [List.mem_singleton.mp hg]
      exact hopen
  · obtain ⟨hwatchdog, hfalling, -⟩ := h.untouched hnone
    refine ⟨hwatchdog, hfalling, fun hmaking => ?_⟩
    exact absurd hmaking (List.concat_ne_nil _ _)

/-- A box takes over the guards that have been made for it. -/
theorem Inv.addBox (h : Inv held watchdog s) (hnot : s.phase ≠ .returned)
    (htwo : s.making.length = 2) {source : Source} {env : InitEnv} {data : Bytes} {chunkSize : ℕ}
    {onNewGuard : Bool} {box : ChunkedSecureBox}
    (hbuilt : construct source P env data chunkSize trustGroup onNewGuard = .ok box) :
    Inv held watchdog ((s.addBox box).to .make) := by
  refine ⟨rfl, ?_, fun g hg => (nomatch hg), fun _ => h.held hnot, fun hnone => ?_⟩
  · intro box' hbox'
    rcases List.mem_append.mp hbox' with hbox' | hbox'
    · exact h.boxes box' hbox'
    · rw [List.mem_singleton.mp hbox']
      obtain ⟨hlatest, hremoved⟩ := ChunkedSecureBox.latest_construct hbuilt htwo h.making
      exact ⟨hremoved, hlatest⟩
  · exact absurd hnone (List.concat_ne_nil _ _)

theorem Inv.bounce (h : Inv held watchdog s) {entry : ℕ × ℕ × ℕ} (hentry : entry ∈ s.bouncing) :
    Inv held watchdog (s.bounce entry) := by
  obtain ⟨b, g, idx⟩ := entry
  have hboxes : (s.bounce (b, g, idx)).boxes = s.boxes.modify b (·.bounce (g, idx)) := rfl
  have hmaking : (s.bounce (b, g, idx)).making
      = if b = s.boxes.length then s.making.modify g (·.bounceCell idx) else s.making := rfl
  have hlength : (s.bounce (b, g, idx)).making.length = s.making.length := by
    rw [hmaking]
    split
    · exact List.length_modify ..
    · rfl
  refine ⟨?_, ?_, ?_, h.held, ?_⟩
  · rw [hlength, hboxes, List.length_modify]
    exact h.fits
  · intro box hbox
    rw [hboxes] at hbox
    obtain ⟨i, hi⟩ := List.getElem?_of_mem hbox
    rw [List.getElem?_modify] at hi
    obtain ⟨old, hold, rfl⟩ := Option.map_eq_some_iff.mp hi
    obtain ⟨hremoved, hlatest⟩ := h.boxes old (List.mem_of_getElem? hold)
    split
    · exact ⟨hremoved, hlatest.bounce _⟩
    · exact ⟨hremoved, hlatest⟩
  · intro guard hguard
    rw [hmaking] at hguard
    split at hguard
    · obtain ⟨i, hi⟩ := List.getElem?_of_mem hguard
      obtain ⟨old, hold, rfl | rfl⟩ := ChunkedSecureBox.bounce_guard s.making (g, idx) hi
      · exact h.making _ (List.mem_of_getElem? hold)
      · exact (h.making _ (List.mem_of_getElem? hold)).bounceCell _
    · exact h.making guard hguard
  · intro hnone
    have hnil : s.boxes = [] := by
      rw [hboxes, ← List.length_eq_zero_iff, List.length_modify] at hnone
      exact List.length_eq_zero_iff.mp hnone
    obtain ⟨hwatchdog, hfalling, hbouncing⟩ := h.untouched hnil
    refine ⟨hwatchdog, hfalling, fun hempty => ?_⟩
    -- the entry belongs to a guard, so one has been made
    rw [← List.length_eq_zero_iff, hlength, List.length_eq_zero_iff] at hempty
    rw [hbouncing hempty] at hentry
    exact nomatch hentry

/-- `_on_new_guard` touches the table and the slot. -/
theorem announce_frame (s : State) (b : ℕ) (announced : Option (List Region)) :
    (s.announce b announced).phase = s.phase ∧ (s.announce b announced).held = s.held ∧
      (s.announce b announced).boxes = s.boxes ∧ (s.announce b announced).making = s.making := by
  unfold State.announce
  split
  · exact ⟨rfl, rfl, rfl, rfl⟩
  · split <;> exact ⟨rfl, rfl, rfl, rfl⟩

theorem Inv.hop (h : Inv held watchdog s) {b : ℕ} {box : ChunkedSecureBox}
    (hbox : s.boxes[b]? = some box) (env : HopEnv) :
    Inv held watchdog (s.hop b box (box.hop P env)) := by
  obtain ⟨hphase, hheld, hsame, hmaking⟩ := announce_frame s b (box.hop P env).announced
  have hboxes : (s.hop b box (box.hop P env)).boxes = s.boxes.set b (box.hop P env).box :=
    congrArg (List.set · b (box.hop P env).box) hsame
  refine ⟨?_, ?_, ?_, ?_, ?_⟩
  · rw [hboxes, List.length_set]
    show Phase.Fits s.boxes.length (s.announce b (box.hop P env).announced).making.length
      (s.announce b (box.hop P env).announced).phase
    rw [hphase, hmaking]
    exact h.fits
  · intro box' hbox'
    rw [hboxes] at hbox'
    rcases List.mem_or_eq_of_mem_set hbox' with hbox' | rfl
    · exact h.boxes box' hbox'
    · obtain ⟨hremoved, hlatest⟩ := h.boxes box (List.mem_of_getElem? hbox)
      obtain ⟨hlatest', hkept⟩ := hlatest.hop (P := P) env
      exact ⟨hkept.trans hremoved, hlatest'⟩
  · intro g hg
    change g ∈ (s.announce b (box.hop P env).announced).making at hg
    rw [hmaking] at hg
    exact h.making g hg
  · intro hnot
    exact hheld.trans (h.held fun heq => hnot (hphase.trans heq))
  · intro hnone
    -- there is a box
    rw [hboxes, ← List.length_eq_zero_iff, List.length_set, List.length_eq_zero_iff] at hnone
    rw [hnone] at hbox
    exact nomatch hbox

theorem Inv.step (h : Inv held watchdog s) {actor : Actor} {s' : State}
    (hstep : Step P trustGroup call s actor s') : Inv held watchdog s' := by
  have hfits := h.fits
  cases hstep with
  | size hphase _ =>
    rw [hphase] at hfits
    exact h.to (by rw [hphase]; exact nofun) hfits
  | sizeRaises hphase _ =>
    rw [hphase] at hfits
    exact h.to (by rw [hphase]; exact nofun) ⟨rfl, hfits⟩
  | currentGuard env hphase =>
    rw [hphase] at hfits
    refine h.addGuard (by rw [hphase]; exact nofun) (SplitKeyGuard.open_new P _ _) ?_
    exact congrArg (· + 1) hfits
  | currentGuardRaises hphase =>
    rw [hphase] at hfits
    exact h.to (by rw [hphase]; exact nofun) ⟨rfl, hfits⟩
  | nextKey hphase _ =>
    rw [hphase] at hfits
    exact h.to (by rw [hphase]; exact nofun) hfits
  | nextKeyRaises hphase _ =>
    rw [hphase] at hfits
    exact h.to (by rw [hphase]; exact nofun) ⟨rfl, hfits⟩
  | nextGuard hphase =>
    rw [hphase] at hfits
    refine h.addGuard (by rw [hphase]; exact nofun) (SplitKeyGuard.open_new P _ _) ?_
    exact congrArg (· + 1) hfits
  | nextGuardRaises hphase =>
    rw [hphase] at hfits
    exact h.to (by rw [hphase]; exact nofun) ⟨rfl, hfits⟩
  | chunks hphase _ hbuilt =>
    rw [hphase] at hfits
    exact h.addBox (by rw [hphase]; exact nofun) hfits hbuilt
  | chunksRaises hphase =>
    rw [hphase] at hfits
    exact h.to (by rw [hphase]; exact nofun) ⟨rfl, hfits⟩
  | made hphase hthree =>
    rw [hphase] at hfits
    refine h.to (by rw [hphase]; exact nofun) ?_
    split <;> exact ⟨hthree, hfits⟩
  | regions hphase _ =>
    rw [hphase] at hfits
    exact h.to (by rw [hphase]; exact nofun) hfits
  | regionsRaises hphase _ =>
    rw [hphase] at hfits
    exact h.to (by rw [hphase]; exact nofun) hfits
  | table hphase _ _ =>
    rw [hphase] at hfits
    refine ⟨hfits, h.boxes, h.making, fun _ => h.held (by rw [hphase]; exact nofun),
      fun hnone => ?_⟩
    -- three boxes have been made
    exact nomatch hfits.1.symm.trans (congrArg List.length hnone)
  | tableRaises hphase _ _ =>
    rw [hphase] at hfits
    exact h.to (by rw [hphase]; exact nofun) hfits
  | pieceSize hphase =>
    rw [hphase] at hfits
    exact h.to (by rw [hphase]; exact nofun) hfits
  | pieceSizeRaises hphase _ =>
    rw [hphase] at hfits
    exact h.to (by rw [hphase]; exact nofun) hfits
  | record hphase =>
    rw [hphase] at hfits
    exact ⟨hfits, h.boxes, h.making, fun hnot => absurd rfl hnot, h.untouched⟩
  | bounce hentry => exact h.bounce hentry
  | hop _ hbox _ => exact h.hop hbox _

/-! ### Whole calls -/

/-- **What is left behind.**  After an exception the file is not held, and every box and every
guard that was there when it was raised is there still, none of them collapsed. -/
theorem left_behind {actors : List Actor} {point : Point}
    (hrun : Run (Step P trustGroup call) (start held watchdog) actors s)
    (hraised : s.phase = .raised point) :
    s.held = held ∧ s.boxes.length = point.boxes ∧ s.making.length = point.guards ∧
      (∀ box ∈ s.boxes, box.removed = false ∧ ∃ g ∈ box.guards, g.Open) ∧
      ∀ g ∈ s.making, g.Open := by
  have h := hrun.invariant inv_start fun ht hstep => ht.step hstep
  have hfits := h.fits
  rw [hraised] at hfits
  refine ⟨h.held (by rw [hraised]; exact nofun), hfits.1, hfits.2, ?_, h.making⟩
  intro box hbox
  obtain ⟨hremoved, -, g, hg, hopen⟩ := h.boxes box hbox
  exact ⟨hremoved, g, List.mem_of_getElem? hg, hopen⟩

/-- **Saving under failure.**  After an exception out of `_hold` nothing is left of the call
if and only if it was raised before the first guard was there: by `os.path.getsize` of the
content, or by the making of the current guard of its box. -/
theorem save_atomic_iff {actors : List Actor} {point : Point}
    (hrun : Run (Step P trustGroup call) (start held watchdog) actors s)
    (hraised : s.phase = .raised point) :
    Atomic held watchdog s ↔ point = .size 0 ∨ point = .currentGuard 0 := by
  obtain ⟨hheld, hboxes, hmaking, hrunning, hopen⟩ := left_behind hrun hraised
  have huntouched :=
    (hrun.invariant inv_start fun ht hstep => ht.step hstep : Inv held watchdog s).untouched
  constructor
  · intro hatomic
    have hnobox : point.boxes = 0 := by
      rw [← hboxes, List.length_eq_zero_iff, List.eq_nil_iff_forall_not_mem]
      intro box hbox
      exact Bool.false_ne_true ((hrunning box hbox).1.symm.trans (hatomic.boxes box hbox).1)
    have hnoguard : point.guards = 0 := by
      rw [← hmaking, List.length_eq_zero_iff, List.eq_nil_iff_forall_not_mem]
      intro g hg
      exact (hopen g hg).not_collapsed (hatomic.making g hg)
    cases point with
    | size k => exact Or.inl (congrArg Point.size hnobox)
    | currentGuard k => exact Or.inr (congrArg Point.currentGuard hnobox)
    | nextKey k => exact nomatch hnoguard
    | nextGuard k => exact nomatch hnoguard
    | chunks k => exact nomatch hnoguard
    | regions k => exact nomatch hnobox
    | table => exact nomatch hnobox
    | pieceSize => exact nomatch hnobox
  · intro hpoint
    have hnone : s.boxes = [] := by
      rw [← List.length_eq_zero_iff, hboxes]
      rcases hpoint with rfl | rfl <;> rfl
    have hempty : s.making = [] := by
      rw [← List.length_eq_zero_iff, hmaking]
      rcases hpoint with rfl | rfl <;> rfl
    obtain ⟨hwatchdog, hfalling, hbouncing⟩ := huntouched hnone
    refine ⟨hheld, hwatchdog, ?_, ?_, hfalling, hbouncing hempty⟩
    · rw [hnone]
      exact fun box hbox => nomatch hbox
    · rw [hempty]
      exact fun g hg => nomatch hg

/-- A call for a file whose original is the content. -/
def sampleCall : Call where
  result := ⟨(.file, [1, 2, 3]), (.bytes, [46]), [7], .content⟩
  name := "a"
  fileId := "0f"

/-- With a watchdog: no memory for the first guard, which leaves nothing; or for the second, when
a cell of the first has bounced already, which leaves that one. -/
theorem save_atomic_iff_sample :
    (∃ s, Run (Step Primitives.sample false sampleCall) (start Dict.empty (some .new))
        [.caller, .caller] s ∧
      s.phase = .raised (.currentGuard 0) ∧ Atomic Dict.empty (some .new) s) ∧
    ∃ s, Run (Step Primitives.sample false sampleCall) (start Dict.empty (some .new))
        [.caller, .caller, .cellScheduler, .caller, .caller] s ∧
      s.phase = .raised (.nextGuard 0) ∧ ¬ Atomic Dict.empty (some .new) s := by
  have hsized : Run (Step Primitives.sample false sampleCall) (start Dict.empty (some .new))
      [.caller] ((start Dict.empty (some .new)).to .sized) := Run.single (.size rfl rfl)
  have hnone := hsized.snoc (.currentGuardRaises rfl)
  refine ⟨⟨_, hnone, rfl, (save_atomic_iff hnone rfl).mpr (Or.inr rfl)⟩, ?_⟩
  have hcell : ((0, 0, 0) : ℕ × ℕ × ℕ) ∈ cells 0 0
      [SplitKeyGuard.new Primitives.sample InitEnv.sample.key InitEnv.sample.currentPages] := by
    decide +kernel
  have hone := (((hsized.snoc (.currentGuard InitEnv.sample rfl)).snoc (.bounce hcell)).snoc
    (.nextKey rfl rfl)).snoc (.nextGuardRaises rfl)
  refine ⟨_, hone, rfl, fun hatomic => ?_⟩
  rcases (save_atomic_iff hone rfl).mp hatomic with heq | heq
  · cases heq
  · cases heq

/-- The content box asks a trust group that does not answer. -/
theorem save_not_atomic :
    ∃ s, Run (Step Primitives.sample true sampleCall) (start Dict.empty (some .new))
        [.caller, .caller, .caller] s ∧
      s.phase = .raised (.nextKey 0) ∧ ¬ Atomic Dict.empty (some .new) s := by
  let env : InitEnv := { InitEnv.sample with fetch := .error .osError }
  refine ⟨_, ((Run.single (.size rfl rfl)).snoc (.currentGuard env rfl)).snoc
    (.nextKeyRaises rfl rfl), rfl, fun hatomic => ?_⟩
  -- the guard with the key of the content
  refine (SplitKeyGuard.open_new Primitives.sample env.key env.currentPages).not_collapsed ?_
  exact hatomic.making _ (List.mem_singleton_self _)

end SaveFailure
