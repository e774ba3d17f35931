/-
`system.py` and `packed_system.py`: saving a file from its path.

Both stores hand the pieces of `split_file` to their `_hold`, which compresses them as if they
were bytes.  One of the three is always a marker to be streamed from disk, and `lzma.compress`
takes no such thing.  `save_bytes`, whose pieces are bytes, works.

* `VirtualStorage.save_typeError`, `PackedVirtualStorage.save_typeError`: whenever `split_file`
  returns, `save` raises `TypeError`.
* `VirtualStorage.retrieve_saveRaw`: what was saved from bytes is retrieved.
* `not_savesAlike`: in neither store is there a path that is saved as its contents are.
-/
import Mathlib
import VStorage.PackedSaves

open Splitter (Disk FilePiece)

/-! ### Saving -/

/-- `_compress`, of `VirtualStorage`. -/
def compressPiece (P : Primitives) : FilePiece → Except PyError Bytes
  | .fromFile _ => .error .typeError
  | .bytes data => .ok (P.pack data)

namespace VirtualStorage

variable {FileId : Type} [DecidableEq FileId] (P : Primitives) (L : Splitter.Libraries)
  (disk : Disk)

/-- `_hold`, with the id that `uuid4` gives. -/
def holdPieces (result : Splitter.SplitResult) (fileId : FileId) (vs : VirtualStorage FileId) :
    Except PyError (VirtualStorage FileId) := do
  let content ← compressPiece P result.content
  let structural ← compressPiece P result.structural
  let metadata ← compressPiece P (.bytes result.metadata)
  return ⟨vs.held.set fileId
    { content := .new content, structural := .new structural, metadata := .new metadata
      reconstructFrom := result.reconstructFrom }⟩

/-- `save`. -/
def save (path : PyStr) (fileId : FileId) (vs : VirtualStorage FileId) :
    Except PyError (VirtualStorage FileId) := do
  vs.holdPieces P (← Splitter.splitFile L disk path) fileId

/-- `save_bytes`. -/
def saveRaw (raw : Bytes) (nameHint : PyStr) (fileId : FileId) (vs : VirtualStorage FileId) :
    Except PyError (VirtualStorage FileId) := do
  vs.holdPieces P (← Splitter.splitBytes L raw nameHint) fileId

end VirtualStorage

namespace PackedVirtualStorage

variable {FileId : Type*} [DecidableEq FileId] (P : Primitives) (L : Splitter.Libraries)
  (disk : Disk)

/-- `save`, when nothing goes wrong but what the pieces do. -/
def save (path : PyStr) (fileId : FileId) (hops : Piece → List Piece)
    (s : PackedVirtualStorage FileId) : PackedVirtualStorage FileId × Except PyError Unit :=
  match Splitter.splitFile L disk path with
  | .error e => (s, .error e)
  | .ok result => s.hold P Faults.none result (Splitter.basename path) fileId hops

/-- `save_bytes`. -/
def saveBytes (raw : Bytes) (nameHint : PyStr) (fileId : FileId) (hops : Piece → List Piece)
    (s : PackedVirtualStorage FileId) : PackedVirtualStorage FileId × Except PyError Unit :=
  match Splitter.splitBytes L raw nameHint with
  | .error e => (s, .error e)
  | .ok result => s.hold P Faults.none result nameHint fileId hops

/-- `retrieve`, where `none` is "full". -/
def retrieve (fileId : FileId) (which : Option Piece) (s : PackedVirtualStorage FileId) :
    Except PyError Bytes :=
  match s.entries.get? fileId with
  | none => .error .keyError
  | some (reconstructFrom, _) => do
    P.unpack (← ((s.box (which.getD reconstructFrom)).get fileId).2)

end PackedVirtualStorage

/-- Both saves have succeeded, and what is retrieved is the same; the whole is the contents. -/
def SavesAlike {Store : Type*} (retrieve retrieve' : Option Piece → Store → Except PyError Bytes)
    (contents : Bytes) (saved saved' : Except PyError Store) : Prop :=
  ∃ s s', saved = .ok s ∧ saved' = .ok s' ∧ (∀ which, retrieve which s = retrieve' which s') ∧
    retrieve none s = .ok contents

theorem not_savesAlike_error {Store : Type*}
    {retrieve retrieve' : Option Piece → Store → Except PyError Bytes} {contents : Bytes}
    {saved saved' : Except PyError Store} {e : PyError} (h : saved = .error e) :
    ¬ SavesAlike retrieve retrieve' contents saved saved' := by
  rintro ⟨s, s', hsaved, -⟩
  rw [h] at hsaved
  cases hsaved

/-! ### From a path -/

variable {P : Primitives} {L : Splitter.Libraries} {disk : Disk} {path : PyStr}
  {result : Splitter.SplitResult}

namespace VirtualStorage

variable {FileId : Type} [DecidableEq FileId] {vs : VirtualStorage FileId} {fileId : FileId}

/-- The marker is the content, or it comes after a content that is bytes. -/
theorem save_typeError (hsplit : Splitter.splitFile L disk path = .ok result) :
    vs.save P L disk path fileId = .error .typeError := by
  obtain ⟨hmarker, hwhich⟩ := Splitter.splitFile_marks hsplit
  rw [save, hsplit, ok_bind, holdPieces]
  rcases hwhich with hcontent | ⟨hstructural, data, hdata⟩
  · rw [hcontent] at hmarker
    have hcompress : compressPiece P result.content = .error .typeError := by
      rw [show result.content = .fromFile path from hmarker, compressPiece]
    rw [hcompress, error_bind]
  · rw [hstructural] at hmarker
    have hcompress : compressPiece P result.structural = .error .typeError := by
      rw [show result.structural = .fromFile path from hmarker, compressPiece]
    rw [hdata, compressPiece, ok_bind, hcompress, error_bind]

/-- So `save` never returns. -/
theorem save_raises (P : Primitives) (L : Splitter.Libraries) (disk : Disk) (path : PyStr)
    (vs : VirtualStorage FileId) (fileId : FileId) :
    ∃ e, vs.save P L disk path fileId = .error e := by
  cases hsplit : Splitter.splitFile L disk path with
  | error e => exact ⟨e, by rw [save, hsplit, error_bind]⟩
  | ok result => exact ⟨.typeError, save_typeError hsplit⟩

/-- Pieces that are bytes are held as before. -/
theorem holdPieces_bytes (content structural metadata : Bytes) (reconstructFrom : Piece)
    (fileId : FileId) (vs : VirtualStorage FileId) :
    vs.holdPieces P ⟨.bytes content, .bytes structural, metadata, reconstructFrom⟩ fileId
      = .ok (vs.hold P ⟨content, structural, metadata, reconstructFrom⟩ fileId) := rfl

/-- A file that was saved from its bytes is retrieved. -/
theorem retrieve_saveRaw {raw : Bytes} {nameHint : PyStr}
    (hsplit : Splitter.splitBytes L raw nameHint = .ok result) :
    ∃ vs', vs.saveRaw P L raw nameHint fileId = .ok vs' ∧ vs'.retrieve P fileId none = .ok raw := by
  have hbytes := Splitter.splitBytes_bytes hsplit
  have horiginal := Splitter.splitBytes_original hsplit
  obtain ⟨content, structural, metadata, reconstructFrom⟩ := result
  obtain ⟨content, structural, rfl, rfl⟩ := hbytes
  have hraw : SplitResult.piece ⟨content, structural, metadata, reconstructFrom⟩ reconstructFrom
      = raw := by
    cases reconstructFrom with
    | content => exact FilePiece.bytes.inj horiginal
    | structural => exact FilePiece.bytes.inj horiginal
    | metadata => exact FilePiece.bytes.inj horiginal
  have hkeeps := Held.keeps_new P ⟨content, structural, metadata, reconstructFrom⟩
  rw [hraw] at hkeeps
  refine ⟨_, by rw [saveRaw, hsplit, ok_bind, holdPieces_bytes], ?_⟩
  exact Keeps.retrieve ⟨_, (Dict.get?_set ..).trans (if_pos rfl), hkeeps⟩

end VirtualStorage

namespace PackedVirtualStorage

variable {FileId : Type} [DecidableEq FileId] {s : PackedVirtualStorage FileId} {fileId : FileId}
  {hops : Piece → List Piece}

theorem hold_typeError {name : PyStr} (hmarker : result.piece result.reconstructFrom = .fromFile path)
    (hwhich : result.reconstructFrom = .content ∨
      result.reconstructFrom = .structural ∧ ∃ data, result.content = .bytes data) :
    (s.hold P Faults.none result name fileId hops).2 = .error .typeError := by
  rw [hold, holdPieces, holdPiece]
  rcases hwhich with hcontent | ⟨hstructural, data, hdata⟩
  · rw [hcontent] at hmarker
    rw [hmarker, compress]
  · rw [hstructural] at hmarker
    have hcontent : result.piece .content = .bytes data := hdata
    have hcompress : ∃ packed, compress P Faults.none .content (result.piece .content)
        = .ok packed := by
      rw [hcontent, compress]
      split
      · exact ⟨_, rfl⟩
      · exact ⟨_, rfl⟩
    obtain ⟨packed, hpacked⟩ := hcompress
    rw [hpacked]
    dsimp only [Faults.none]
    rw [holdPieces, holdPiece, hmarker, compress]

theorem save_typeError (hsplit : Splitter.splitFile L disk path = .ok result) :
    (s.save P L disk path fileId hops).2 = .error .typeError := by
  obtain ⟨hmarker, hwhich⟩ := Splitter.splitFile_marks hsplit
  rw [save, hsplit]
  exact hold_typeError hmarker hwhich

theorem save_raises (P : Primitives) (L : Splitter.Libraries) (disk : Disk) (path : PyStr)
    (s : PackedVirtualStorage FileId) (fileId : FileId) (hops : Piece → List Piece) :
    ∃ e, (s.save P L disk path fileId hops).2 = .error e := by
  cases hsplit : Splitter.splitFile L disk path with
  | error e => exact ⟨e, by rw [save, hsplit]⟩
  | ok result => exact ⟨.typeError, save_typeError hsplit⟩

end PackedVirtualStorage

/-! ### Both stores -/

/-- What a save of the packed store returns: the store as it is then. -/
def PackedVirtualStorage.returned {FileId : Type*}
    (out : PackedVirtualStorage FileId × Except PyError Unit) :
    Except PyError (PackedVirtualStorage FileId) :=
  out.2.map fun _ => out.1

variable {FileId : Type} [DecidableEq FileId]

/-- **Saving a path.**  In both stores, whatever is held already and wherever the boxes are,
`save` raises for every path and every contents, so that it never does what `save_bytes` of the
contents and the base name does. -/
theorem not_savesAlike (P : Primitives) (L : Splitter.Libraries) (disk : Disk) (path : PyStr)
    (contents : Bytes) (fileId fileId' : FileId) :
    (∀ vs vs' : VirtualStorage FileId, (∃ e, vs.save P L disk path fileId = .error e) ∧
      ¬ SavesAlike (fun which vs => vs.retrieve P fileId which)
        (fun which vs => vs.retrieve P fileId' which) contents (vs.save P L disk path fileId)
        (vs'.saveRaw P L contents (Splitter.basename path) fileId')) ∧
    (∀ (s s' : PackedVirtualStorage FileId) (hops hops' : Piece → List Piece),
      (∃ e, (s.save P L disk path fileId hops).2 = .error e) ∧
      ¬ SavesAlike (fun which s => s.retrieve P fileId which)
        (fun which s => s.retrieve P fileId' which) contents
        (PackedVirtualStorage.returned (s.save P L disk path fileId hops))
        (PackedVirtualStorage.returned
          (s'.saveBytes P L contents (Splitter.basename path) fileId' hops'))) := by
  constructor
  · intro vs vs'
    obtain ⟨e, he⟩ := VirtualStorage.save_raises P L disk path vs fileId
    exact ⟨⟨e, he⟩, not_savesAlike_error he⟩
  · intro s s' hops hops'
    obtain ⟨e, he⟩ := PackedVirtualStorage.save_raises P L disk path s fileId hops
    have hreturned : PackedVirtualStorage.returned (s.save P L disk path fileId hops)
        = .error e := by
      rw [PackedVirtualStorage.returned, he]
      rfl
    exact ⟨⟨e, he⟩, not_savesAlike_error hreturned⟩

/-- A text file: `save` raises, and `save_bytes` of its contents is retrieved. -/
theorem save_text :
    let disk : Disk := fun path => if path = pyStr "d/a.txt" then some [104, 105] else none
    (∃ e, (VirtualStorage.new : VirtualStorage ℕ).save Primitives.sample Splitter.Libraries.sample
      disk (pyStr "d/a.txt") 0 = .error e) ∧
    (∃ vs, (VirtualStorage.new : VirtualStorage ℕ).saveRaw Primitives.sample
      Splitter.Libraries.sample [104, 105] (pyStr "a.txt") 0 = .ok vs ∧
      vs.retrieve Primitives.sample 0 none = .ok [104, 105]) ∧
    ¬ ∀ (P : Primitives) (L : Splitter.Libraries) (disk : Disk) (path : PyStr) (contents : Bytes)
      (vs : VirtualStorage ℕ), disk path = some contents → L.Alike disk →
      SavesAlike (fun which vs => vs.retrieve P 0 which) (fun which vs => vs.retrieve P 0 which)
        contents (vs.save P L disk path 0) (vs.saveRaw P L contents (Splitter.basename path) 0) := by
  intro disk
  have hraises := VirtualStorage.save_raises Primitives.sample Splitter.Libraries.sample disk
    (pyStr "d/a.txt") (.new : VirtualStorage ℕ) 0
  refine ⟨hraises, ?_, fun hall => ?_⟩
  · have hsplits : (Splitter.splitBytes Splitter.Libraries.sample [104, 105]
        (pyStr "a.txt")).toOption.isSome = true := by decide +kernel
    cases hsplit : Splitter.splitBytes Splitter.Libraries.sample [104, 105] (pyStr "a.txt") with
    | error e =>
      rw [hsplit] at hsplits
      cases hsplits
    | ok result => exact VirtualStorage.retrieve_saveRaw hsplit
  · obtain ⟨e, he⟩ := hraises
    refine not_savesAlike_error he (hall Primitives.sample Splitter.Libraries.sample disk
      (pyStr "d/a.txt") [104, 105] .new rfl ⟨fun _ => rfl, fun _ _ => rfl⟩)
