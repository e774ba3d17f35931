/-
`secure_system.py`: the storage, with any number of calls at once.

A call of `_hold` makes three boxes, registers their pages, and enters them into the table; what
it raises on the way leaves them where they are.  A call of `forget` takes the entry out of the
table and then collapses the boxes one by one.  In between the workers hop the boxes, cells
bounce, retrievals set and clear the flags of the boxes, and the files on disk change.

A hop holds the lock of its box, and so does a retrieval, so that each is one step here.  The
boxes go by their position among all that were ever made, and the calls by the ids they draw.
-/
import Mathlib
import VStorage.KeyedStore
import VStorage.RotationFailure
import VStorage.SaveFailure
import VStorage.Splitter
import VStorage.WrappedFile

namespace SecureFiles

open ChunkedSecureBox
open KeyedStore (Effect)
open Splitter (Disk FilePiece)
open SaveFailure (defaultChunkSize)
open SecureVirtualStorage (Slot onNewGuard)

/-! ### The storage -/

/-- A box with the slot of its registrar, and what it was made from.  A box whose hop has
raised is not put back. -/
structure Falling where
  box : ChunkedSecureBox
  data : Bytes
  slot : Option Slot
  stopped : Bool

def Falling.new (box : ChunkedSecureBox) (data : Bytes) : Falling := ⟨box, data, none, false⟩

/-- `_Held`; boxes go by their position among all that were ever made. -/
structure Held where
  box : Piece → ℕ
  reconstructFrom : Piece
  originalSize : ℕ
  name : PyStr

/-- How far a call of `_hold` has got, and what becomes of its file. -/
inductive Phase
  | making
  | registered
  | held (originalSize : ℕ)
  | raised
  | forgotten
  deriving DecidableEq

/-- A call of `_hold`, with the boxes it has made. -/
structure Call where
  result : Splitter.SplitResult
  name : PyStr
  boxes : List ℕ
  phase : Phase

/-- The order in which `_hold` makes the boxes. -/
def place : Piece → ℕ
  | .content => 0
  | .structural => 1
  | .metadata => 2

/-- The piece that the next box is made from. -/
def Call.next (c : Call) : Option FilePiece :=
  [c.result.content, c.result.structural, .bytes c.result.metadata][c.boxes.length]?

/-- What is entered into the table. -/
def Call.entry (c : Call) (originalSize : ℕ) : Held where
  box piece := c.boxes.getD (place piece) 0
  reconstructFrom := c.result.reconstructFrom
  originalSize := originalSize
  name := c.name

/-- The piece that `_hold` takes the size of. -/
def Call.original (c : Call) : FilePiece :=
  if c.result.reconstructFrom = .content then c.result.content else c.result.structural

/-- The calls go by the ids that they draw; `forgetting` are the boxes that a `forget` has
taken out of the table and not collapsed yet. -/
structure State (FileId : Type*) where
  boxes : List Falling
  calls : FileId → Option Call
  held : Dict FileId Held
  forgetting : List ℕ
  watchdog : Option ProcessWatchdog
  disk : Disk

variable {FileId : Type*}

/-- `__init__`. -/
def start (watchdog : Option ProcessWatchdog) (disk : Disk) : State FileId where
  boxes := []
  calls := fun _ => none
  held := .empty
  forgetting := []
  watchdog := watchdog
  disk := disk

/-- What `_make_box` makes a box from. -/
def source (disk : Disk) : FilePiece → Except PyError (Source × Bytes)
  | .bytes data => .ok (.bytes, data)
  | .fromFile path => do return (.file, ← Splitter.readFile disk path)

def State.setBox (s : State FileId) (b : ℕ) (f : Falling) : State FileId :=
  { s with boxes := s.boxes.set b f }

def State.setCall [DecidableEq FileId] (s : State FileId) (fileId : FileId) (c : Call) :
    State FileId :=
  { s with calls := Function.update s.calls fileId (some c) }

/-- `add_regions` of the pages of the boxes, if there is a watchdog. -/
def State.register (s : State FileId) (c : Call) : Option (Option ProcessWatchdog) :=
  match s.watchdog with
  | none => some none
  | some w =>
    (w.addRegions (c.boxes.flatMap fun b => s.boxes[b]?.elim [] (·.box.regions))).map some

/-- `_on_new_guard`, if the hop calls it. -/
def State.announce (s : State FileId) (f : Falling) :
    Option (List Region) → Option ProcessWatchdog × Option Slot
  | none => (s.watchdog, f.slot)
  | some regions =>
    match s.watchdog with
    | none => (none, f.slot)
    | some w => (some (onNewGuard regions w f.slot).1, some (onNewGuard regions w f.slot).2)

/-- A box after a hop. -/
def Falling.hopped (f : Falling) (result : HopResult) (slot : Option Slot) : Falling where
  box := result.box
  data := f.data
  slot := slot
  stopped :=
    match result.outcome with
    | .ok () => false
    | .error _ => true

/-- A file as those see it who save and retrieve it. -/
structure File where
  piece : Piece → Bytes
  reconstructFrom : Piece
  originalSize : ℕ
  name : PyStr

/-- The file that an entry of the table stands for. -/
def State.file (s : State FileId) (held : Held) : File where
  piece p := s.boxes[held.box p]?.elim [] Falling.data
  reconstructFrom := held.reconstructFrom
  originalSize := held.originalSize
  name := held.name

/-- What `save` and `save_bytes` are called with. -/
inductive Origin
  | path (path : PyStr)
  | bytes (raw : Bytes) (nameHint : PyStr)

/-- `split_file(path)`, `split_bytes(raw, name_hint)`. -/
def Origin.split (L : Splitter.Libraries) (disk : Disk) :
    Origin → Except PyError Splitter.SplitResult
  | .path p => Splitter.splitFile L disk p
  | .bytes raw nameHint => Splitter.splitBytes L raw nameHint

def Origin.name : Origin → PyStr
  | .path p => Splitter.basename p
  | .bytes _ nameHint => nameHint

/-- What a step shows. -/
inductive Event (FileId : Type*)
  | quiet
  | called (fileId : FileId) (origin : Origin)
  | saved (fileId : FileId) (file : File)
  | forgot (fileId : FileId)

def Event.effect : Event FileId → Effect FileId File
  | .quiet | .called _ _ => .keep
  | .saved fileId file => .put fileId file
  | .forgot fileId => .drop fileId

/-- The boxes of a file, in the order in which `forget` collapses them. -/
def Held.boxes (held : Held) : List ℕ := [held.box .content, held.box .structural,
  held.box .metadata]

section

variable [DecidableEq FileId] (P : Primitives) (L : Splitter.Libraries) (trustGroup : Bool)

/-- One step of anyone.  Whatever a call of `_hold` asks of the outside may raise. -/
inductive Step : State FileId → Event FileId → State FileId → Prop
  | call {s : State FileId} {fileId : FileId} {origin : Origin} {result : Splitter.SplitResult} :
      s.calls fileId = none → origin.split L s.disk = .ok result →
      Step s (.called fileId origin) (s.setCall fileId ⟨result, origin.name, [], .making⟩)
  | make {s : State FileId} {fileId : FileId} {c : Call} {piece : FilePiece} {src : Source}
      {data : Bytes} {env : InitEnv} {box : ChunkedSecureBox} :
      s.calls fileId = some c → c.phase = .making → c.next = some piece →
      source s.disk piece = .ok (src, data) →
      construct src P env data defaultChunkSize trustGroup s.watchdog.isSome = .ok box →
      Step s .quiet ({ s with boxes := s.boxes ++ [Falling.new box data] }.setCall fileId
        { c with boxes := c.boxes ++ [s.boxes.length] })
  | register {s : State FileId} {fileId : FileId} {c : Call} {w : Option ProcessWatchdog} :
      s.calls fileId = some c → c.phase = .making → c.boxes.length = 3 →
      s.register c = some w →
      Step s .quiet ({ s with watchdog := w }.setCall fileId { c with phase := .registered })
  | record {s : State FileId} {fileId : FileId} {c : Call} {size : ℕ} :
      s.calls fileId = some c → c.phase = .registered →
      Splitter.pieceSize s.disk c.original = .ok size →
      Step s (.saved fileId (s.file (c.entry size)))
        ({ s with held := s.held.set fileId (c.entry size) }.setCall fileId
          { c with phase := .held size })
  | raises {s : State FileId} {fileId : FileId} {c : Call} :
      s.calls fileId = some c → c.phase = .making ∨ c.phase = .registered →
      Step s .quiet (s.setCall fileId { c with phase := .raised })
  | forget {s : State FileId} {fileId : FileId} {c : Call} {held : Held} :
      s.held.get? fileId = some held → s.calls fileId = some c →
      Step s (.forgot fileId)
        ({ s with
            held := s.held.erase fileId
            forgetting := s.forgetting ++ held.boxes }.setCall fileId
              { c with phase := .forgotten })
  | collapse {s : State FileId} {b : ℕ} {f : Falling} : b ∈ s.forgetting →
      s.boxes[b]? = some f →
      Step s .quiet ({ s with forgetting := s.forgetting.erase b }.setBox b
        { f with box := f.box.collapse })
  | hop {s : State FileId} {b : ℕ} {f : Falling} {env : HopEnv} : s.boxes[b]? = some f →
      f.box.removed = false → f.stopped = false → env.callback = .ok () →
      Step s .quiet ({ s with watchdog := (s.announce f (f.box.hop P env).announced).1 }.setBox b
        (f.hopped (f.box.hop P env) (s.announce f (f.box.hop P env).announced).2))
  | bounce {s : State FileId} {b : ℕ} {f : Falling} {cell : ℕ × ℕ} : s.boxes[b]? = some f →
      Step s .quiet (s.setBox b { f with box := f.box.bounce cell })
  /-- A retrieval sets the flag, or clears it. -/
  | pause {s : State FileId} {b : ℕ} {f : Falling} {paused : Bool} : s.boxes[b]? = some f →
      Step s .quiet (s.setBox b { f with box := { f.box with paused := paused } })
  | write {s : State FileId} {disk : Disk} : Step s .quiet { s with disk := disk }

end

/-! ### Ways out -/

section

variable [DecidableEq FileId] (P : Primitives)

/-- `held.boxes[which]`, where `none` is "full". -/
def State.lookup (s : State FileId) (fileId : FileId) (which : Option Piece) :
    Except PyError ℕ :=
  match s.held.get? fileId with
  | none => .error .keyError
  | some held => .ok (held.box (which.getD held.reconstructFrom))

/-- The box at a position. -/
def State.boxAt (s : State FileId) (b : ℕ) : Except PyError ChunkedSecureBox := do
  let falling ← pyIndex s.boxes b
  return falling.box

/-- `retrieve`. -/
def State.retrieve (s : State FileId) (between : List (ℕ × ℕ)) (fileId : FileId)
    (which : Option Piece) : Except PyError Bytes := do
  let b ← s.lookup fileId which
  ((← s.boxAt b).snapshot P between).2

/-- What `open(dest_path, "wb")` and the writes of a stream make of the disk. -/
def writeFile (disk : Disk) (destPath : PyStr) (written : List Bytes) : Disk :=
  Function.update disk destPath (some written.flatten)

/-- `retrieve_to_file`. -/
def State.retrieveToFile (s : State FileId) (between : List (ℕ × ℕ)) (fileId : FileId)
    (destPath : PyStr) (which : Option Piece) (write : ℕ → Except PyError Unit) :
    Disk × Except PyError Unit :=
  match s.lookup fileId which >>= s.boxAt with
  | .error e => (s.disk, .error e)
  | .ok box =>
    let (written, outcome) := (box.streamTo P between write).2
    (writeFile s.disk destPath written, outcome)

/-- `retrieve_to_encrypted_file`. -/
def State.retrieveToEncryptedFile (s : State FileId) (between : List (ℕ × ℕ)) (fileId : FileId)
    (destPath : PyStr) (transitKey : Bytes) (nonces : ℕ → Nonce) (which : Option Piece)
    (write : ℕ → Except PyError Unit) : Disk × Except PyError Bytes :=
  match s.lookup fileId which >>= s.boxAt with
  | .error e => (s.disk, .error e)
  | .ok box =>
    let (written, outcome) := (box.streamToWrapped P between transitKey nonces write).2
    (writeFile s.disk destPath written, outcome.map fun _ => transitKey)

/-- `decrypt_wrapped_file`, with its two files.  The second is opened for writing before the
first is read. -/
def decryptFile (disk : Disk) (path : PyStr) (transitKey : Bytes) (destPath : PyStr) :
    Disk × Except PyError Unit :=
  match disk path with
  | none => (disk, .error .osError)
  | some src =>
    let (written, outcome) :=
      decryptWrappedFile P transitKey (if path = destPath then [] else src)
    (writeFile disk destPath written, outcome)

/-- `original_size_bytes`. -/
def State.originalSizeBytes (s : State FileId) (fileId : FileId) : Except PyError ℕ :=
  match s.held.get? fileId with
  | none => .error .keyError
  | some held => .ok held.originalSize

/-- `list_ids`. -/
def State.listIds (s : State FileId) : List FileId := s.held.keys

end

end SecureFiles
