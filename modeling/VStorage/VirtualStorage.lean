/-
`splitter.py`, from bytes, and `system.py`: files in falling boxes.

A file is split into three pieces by the extension of its name, and each piece falls in
a box of its own.  Which branch of the splitter a name takes decides which piece is the
file; it always is one of them (`original_splitBytes`), so reading that box gives the
file back however it has fallen (`Held.Keeps`).

Text is `String`: names are taken to be such that they can be encoded.
-/
import Mathlib
import VStorage.Dict
import VStorage.FallingBox
import VStorage.Primitives

/-! ### Splitting -/

/-- What the splitter uses of other people's code. -/
structure Libraries where
  /-- `str.lower`. -/
  lower : String → String
  /-- The pages of a PDF as text, by `pypdf`. -/
  pdfText : Bytes → Except PyError String
  /-- `z.read(part)`, for the `zipfile.ZipFile` of some bytes. -/
  zipRead : Bytes → String → Except PyError Bytes

/-- A stand-in for them: no PDF and no archive can be read. -/
def Libraries.sample : Libraries := ⟨String.toLower, fun _ => .error .valueError,
  fun _ _ => .error .keyError⟩

/-- `s.encode("utf-8")`. -/
def encodeUtf8 (s : String) : Bytes := s.toUTF8.toList

/-- `hexdigest`. -/
def hexDigest (bytes : Bytes) : String :=
  String.ofList (bytes.flatMap fun b =>
    [Nat.digitChar (b.toNat / 16), Nat.digitChar (b.toNat % 16)])

/-- `p.rfind(c)`. -/
def rfind (p : List Char) (c : Char) : ℤ :=
  match p.reverse.idxOf? c with
  | some i => p.length - 1 - i
  | none => -1

/-- `os.path.splitext(p)[1]`: from the last dot on, unless only dots stand before it in the
last part of the path. -/
def splitext (p : String) : String :=
  let chars := p.toList
  let sepIndex := rfind chars '/'
  let dotIndex := rfind chars '.'
  if dotIndex > sepIndex ∧
      ((chars.take dotIndex.toNat).drop (sepIndex + 1).toNat).any (· ≠ '.') then
    String.ofList (chars.drop dotIndex.toNat)
  else ""

/-- `os.path.basename`. -/
def basename (p : String) : String :=
  String.ofList (p.toList.drop (rfind p.toList '/' + 1).toNat)

/-- `ZIP_CONTAINER_EXTS`. -/
def zipContainerExts : List String := [".docx", ".xlsx", ".pptx"]

/-- `ALREADY_COMPRESSED_EXTS`. -/
def alreadyCompressedExts : List String :=
  [".jpg", ".jpeg", ".png", ".gif", ".webp", ".mp4", ".mp3", ".aac", ".zip", ".gz", ".xz", ".bin"]

/-- `_OFFICE_MAIN_PART`. -/
def officeMainPart (ext : String) : String :=
  if ext = ".docx" then "word/document.xml"
  else if ext = ".xlsx" then "xl/worksheets/sheet1.xml"
  else "ppt/slides/slide1.xml"

inductive Piece
  | content
  | structural
  | metadata
  deriving DecidableEq

/-- `SplitResult`, of pieces that are bytes. -/
structure SplitResult where
  content : Bytes
  structural : Bytes
  metadata : Bytes
  reconstructFrom : Piece

def SplitResult.piece (result : SplitResult) : Piece → Bytes
  | .content => result.content
  | .structural => result.structural
  | .metadata => result.metadata

/-- `_extract_pdf_text_from_bytes`. -/
def extractPdfText (L : Libraries) (raw : Bytes) : Bytes :=
  match L.pdfText raw with
  | .ok text => encodeUtf8 text
  | .error _ => []

/-- `_extract_office_xml_from_bytes`. -/
def extractOfficeXml (L : Libraries) (raw : Bytes) (ext : String) : Bytes :=
  match L.zipRead raw (officeMainPart ext) with
  | .ok part => part
  | .error _ => []

/-- `split_bytes`. -/
def splitBytes (P : Primitives) (L : Libraries) (raw : Bytes) (nameHint : String) : SplitResult :=
  let ext := L.lower (splitext nameHint)
  let metadata := encodeUtf8 ("name=" ++ basename nameHint ++ "\text=" ++ ext ++ "\tsize="
    ++ toString raw.length ++ "\tsha256=" ++ hexDigest (P.sha256 raw))
  if ext = ".pdf" then
    { content := extractPdfText L raw, structural := raw, metadata := metadata
      reconstructFrom := .structural }
  else if ext ∈ zipContainerExts then
    { content := extractOfficeXml L raw ext, structural := raw, metadata := metadata
      reconstructFrom := .structural }
  else if ext ∈ alreadyCompressedExts then
    { content := [], structural := raw, metadata := metadata, reconstructFrom := .structural }
  else
    { content := raw, structural := encodeUtf8 ext, metadata := metadata
      reconstructFrom := .content }

example : splitext "a.b/c.d.tar" = ".tar" ∧ splitext "x/.bashrc" = "" ∧ splitext "..a.b" = ".b" := by
  decide +kernel

/-- Whatever the name, the piece to reconstruct from is the original. -/
theorem original_splitBytes (P : Primitives) (L : Libraries) (raw : Bytes) (nameHint : String) :
    (splitBytes P L raw nameHint).piece (splitBytes P L raw nameHint).reconstructFrom = raw := by
  unfold splitBytes
  dsimp only
  split_ifs <;> rfl

/-! ### Holding -/

/-- `_Held`. -/
structure Held where
  content : FallingBox
  structural : FallingBox
  metadata : FallingBox
  reconstructFrom : Piece

namespace Held

/-- `held.boxes[which]`. -/
def box (held : Held) : Piece → FallingBox
  | .content => held.content
  | .structural => held.structural
  | .metadata => held.metadata

/-- The pieces, each compressed, in boxes of their own. -/
def new (P : Primitives) (result : SplitResult) : Held where
  content := .new (P.pack result.content)
  structural := .new (P.pack result.structural)
  metadata := .new (P.pack result.metadata)
  reconstructFrom := result.reconstructFrom

/-- One of the boxes makes a hop. -/
def fall (held : Held) : Piece → Held
  | .content => { held with content := held.content.fall }
  | .structural => { held with structural := held.structural.fall }
  | .metadata => { held with metadata := held.metadata.fall }

/-- The file is `raw`. -/
def Keeps (P : Primitives) (raw : Bytes) (held : Held) : Prop :=
  (held.box held.reconstructFrom).Holds (P.pack raw)

variable {P : Primitives} {raw : Bytes} {held : Held}

theorem keeps_new (P : Primitives) (result : SplitResult) :
    (new P result).Keeps P (result.piece result.reconstructFrom) := by
  obtain ⟨content, structural, metadata, reconstructFrom⟩ := result
  cases reconstructFrom <;> exact FallingBox.holds_new _

theorem Keeps.fall (h : held.Keeps P raw) (piece : Piece) : (held.fall piece).Keeps P raw := by
  obtain ⟨content, structural, metadata, reconstructFrom⟩ := held
  -- it is the box to reconstruct from that hops, or another
  cases piece <;> cases reconstructFrom <;> first
    | exact FallingBox.holds_fall h
    | exact h

end Held

/-- `VirtualStorage`, by the files it holds. -/
structure VirtualStorage (FileId : Type*) where
  held : Dict FileId Held

namespace VirtualStorage

variable {FileId : Type*} [DecidableEq FileId] (P : Primitives) (L : Libraries)

/-- `__init__`. -/
def new : VirtualStorage FileId := ⟨.empty⟩

/-- `_hold`, with the id that `uuid4` gives. -/
def hold (result : SplitResult) (fileId : FileId) (vs : VirtualStorage FileId) :
    VirtualStorage FileId :=
  ⟨vs.held.set fileId (.new P result)⟩

/-- `save_bytes`. -/
def saveBytes (raw : Bytes) (nameHint : String) (fileId : FileId) (vs : VirtualStorage FileId) :
    VirtualStorage FileId :=
  vs.hold P (splitBytes P L raw nameHint) fileId

/-- `retrieve`, where `none` is "full". -/
def retrieve (fileId : FileId) (which : Option Piece) (vs : VirtualStorage FileId) :
    Except PyError Bytes :=
  match vs.held.get? fileId with
  | none => .error .keyError
  | some held => P.unpack (held.box (which.getD held.reconstructFrom)).snapshot

/-- `forget`: the boxes are collapsed, and nothing refers to them any more. -/
def forget (fileId : FileId) (vs : VirtualStorage FileId) : VirtualStorage FileId :=
  ⟨vs.held.erase fileId⟩

/-- A box of a held file makes a hop. -/
def fall (fileId : FileId) (piece : Piece) (vs : VirtualStorage FileId) : VirtualStorage FileId :=
  ⟨vs.held.map fun id held => if id = fileId then held.fall piece else held⟩

/-- The file is held, and it is `raw`. -/
def Keeps (fileId : FileId) (raw : Bytes) (vs : VirtualStorage FileId) : Prop :=
  ∃ held, vs.held.get? fileId = some held ∧ held.Keeps P raw

variable {P L} {vs : VirtualStorage FileId} {fileId other : FileId} {raw : Bytes}

theorem keeps_saveBytes (raw : Bytes) (nameHint : String) (fileId : FileId)
    (vs : VirtualStorage FileId) : (vs.saveBytes P L raw nameHint fileId).Keeps P fileId raw := by
  refine ⟨_, (Dict.get?_set ..).trans (if_pos rfl), ?_⟩
  have hkeeps := Held.keeps_new P (splitBytes P L raw nameHint)
  rwa [original_splitBytes] at hkeeps

/-- Saving one file leaves the others as they are. -/
theorem Keeps.saveBytes (h : vs.Keeps P other raw) (hne : other ≠ fileId) (data : Bytes)
    (nameHint : String) : (vs.saveBytes P L data nameHint fileId).Keeps P other raw := by
  obtain ⟨held, hheld, hkeeps⟩ := h
  exact ⟨held, (Dict.get?_set ..).trans ((if_neg hne).trans hheld), hkeeps⟩

/-- And so does forgetting one. -/
theorem Keeps.forget (h : vs.Keeps P other raw) (hne : other ≠ fileId) :
    (vs.forget fileId).Keeps P other raw := by
  obtain ⟨held, hheld, hkeeps⟩ := h
  exact ⟨held, (Dict.get?_erase ..).trans ((if_neg hne).trans hheld), hkeeps⟩

theorem Keeps.fall (h : vs.Keeps P other raw) (fileId : FileId) (piece : Piece) :
    (vs.fall fileId piece).Keeps P other raw := by
  obtain ⟨held, hheld, hkeeps⟩ := h
  refine ⟨_, (Dict.get?_map ..).trans (congrArg _ hheld), ?_⟩
  split
  · exact hkeeps.fall piece
  · exact hkeeps

/-- A file is retrieved as it was saved. -/
theorem Keeps.retrieve (h : vs.Keeps P fileId raw) : vs.retrieve P fileId none = .ok raw := by
  obtain ⟨held, hheld, hkeeps⟩ := h
  rw [VirtualStorage.retrieve, hheld]
  show P.unpack (held.box held.reconstructFrom).snapshot = _
  rw [hkeeps.snapshot, P.unpack_pack]

end VirtualStorage
