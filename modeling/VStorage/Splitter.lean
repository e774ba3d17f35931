/-
`splitter.py`: a file split from its path, and from its bytes.

`split_file` never holds the file: the pieces that are the file are marked to be streamed from
disk, and the hash is taken a chunk at a time.  `split_bytes` has the bytes.  Text is a list of
code points here, since the name of a file need not be one that can be encoded.

What the hash object of `hashlib`, `pypdf` and `zipfile` do is left open.  Hashing one part
after the other is hashing the whole (`HashObject.update_append`), and the two parsers are
assumed to make of a path what they make of the bytes behind it (`Alike`).

* `hashFile_eq`: the chunks give the hash of the whole.
* `resolve_splitFile`: reading the marked pieces makes of the one result the other.
* `original_splitFile`, `original_splitBytes`: in both the piece to reconstruct from is the
  file.
* `splitFile_splitBytes`: all of it.
-/
import Mathlib
import VStorage.Json
import VStorage.VirtualStorage

namespace Splitter

/-! ### Other people's code -/

/-- The object that `hashlib.sha256()` returns. -/
structure HashObject where
  State : Type
  new : State
  update : State → Bytes → State
  hexdigest : State → PyStr
  update_nil : ∀ h, update h [] = h
  update_append : ∀ h data data', update (update h data) data' = update h (data ++ data')

/-- `hashlib.sha256(data)`. -/
def HashObject.of (H : HashObject) (data : Bytes) : H.State := H.update H.new data

/-- What the splitter uses; `none` stands for an exception. -/
structure Libraries where
  /-- `str.lower`. -/
  lower : PyStr → PyStr
  hash : HashObject
  /-- `page.extract_text()` for the pages of `PdfReader(path)`. -/
  pdfOfPath : PyStr → Option (List (Option PyStr))
  /-- The same for `PdfReader(BytesIO(raw))`. -/
  pdfOfBytes : Bytes → Option (List (Option PyStr))
  /-- `z.read(part)` for `zipfile.ZipFile(path)`. -/
  zipOfPath : PyStr → PyStr → Option Bytes
  /-- The same for `zipfile.ZipFile(BytesIO(raw))`. -/
  zipOfBytes : Bytes → PyStr → Option Bytes

/-- A stand-in: small letters in ASCII only, a hash that is its input, and parsers that can read
neither a PDF nor an archive. -/
def Libraries.sample : Libraries where
  lower s := s.map fun c => if 65 ≤ c ∧ c ≤ 90 then c + 32 else c
  hash :=
    { State := Bytes
      new := []
      update := fun h data => h ++ data
      hexdigest := fun h => h.map UInt8.toNat
      update_nil := List.append_nil
      update_append := List.append_assoc }
  pdfOfPath _ := none
  pdfOfBytes _ := none
  zipOfPath _ _ := none
  zipOfBytes _ _ := none

/-- What is on disk, by path; a path without a file cannot be opened. -/
abbrev Disk := PyStr → Option Bytes

/-- The parsers make the same of a path and of the bytes there. -/
structure Libraries.Alike (L : Libraries) (disk : Disk) : Prop where
  pdf : ∀ {path contents}, disk path = some contents → L.pdfOfPath path = L.pdfOfBytes contents
  zip : ∀ {path contents}, disk path = some contents →
    ∀ part, L.zipOfPath path part = L.zipOfBytes contents part

/-! ### Text -/

/-- One character of `s.encode("utf-8")`; a lone surrogate has no encoding. -/
def encodeChar (c : ℕ) : Except PyError Bytes :=
  if c < 0x80 then .ok [.ofNat c]
  else if c < 0x800 then .ok [.ofNat (0xC0 + c / 64), .ofNat (0x80 + c % 64)]
  else if 0xD800 ≤ c ∧ c < 0xE000 then .error .valueError
  else if c < 0x10000 then
    .ok [.ofNat (0xE0 + c / 4096), .ofNat (0x80 + c / 64 % 64), .ofNat (0x80 + c % 64)]
  else
    .ok [.ofNat (0xF0 + c / 262144), .ofNat (0x80 + c / 4096 % 64), .ofNat (0x80 + c / 64 % 64),
      .ofNat (0x80 + c % 64)]

def encode : PyStr → Except PyError Bytes
  | [] => .ok []
  | c :: s => do return (← encodeChar c) ++ (← encode s)

/-- `p.rfind(c)`. -/
def rfind (p : PyStr) (c : ℕ) : ℤ :=
  match p.reverse.idxOf? c with
  | some i => p.length - 1 - i
  | none => -1

/-- `os.path.splitext(p)[1]`. -/
def splitext (p : PyStr) : PyStr :=
  let sepIndex := rfind p '/'.toNat
  let dotIndex := rfind p '.'.toNat
  if dotIndex > sepIndex ∧
      ((p.take dotIndex.toNat).drop (sepIndex + 1).toNat).any (· ≠ '.'.toNat) then
    p.drop dotIndex.toNat
  else []

/-- `os.path.basename`. -/
def basename (p : PyStr) : PyStr := p.drop (rfind p '/'.toNat + 1).toNat

/-- `ZIP_CONTAINER_EXTS`. -/
def zipContainerExts : List PyStr := [".docx", ".xlsx", ".pptx"].map pyStr

/-- `ALREADY_COMPRESSED_EXTS`. -/
def alreadyCompressedExts : List PyStr :=
  [".jpg", ".jpeg", ".png", ".gif", ".webp", ".mp4", ".mp3", ".aac", ".zip", ".gz", ".xz",
    ".bin"].map pyStr

/-- `_OFFICE_MAIN_PART[ext]`. -/
def officeMainPart (ext : PyStr) : Option PyStr :=
  if ext = pyStr ".docx" then some (pyStr "word/document.xml")
  else if ext = pyStr ".xlsx" then some (pyStr "xl/worksheets/sheet1.xml")
  else if ext = pyStr ".pptx" then some (pyStr "ppt/slides/slide1.xml")
  else none

/-! ### Pieces -/

/-- `Piece`: bytes, or `FromFile(path)`. -/
inductive FilePiece
  | bytes (data : Bytes)
  | fromFile (path : PyStr)
  deriving DecidableEq

structure SplitResult where
  content : FilePiece
  structural : FilePiece
  metadata : Bytes
  reconstructFrom : Piece
  deriving DecidableEq

def SplitResult.piece (result : SplitResult) : Piece → FilePiece
  | .content => result.content
  | .structural => result.structural
  | .metadata => .bytes result.metadata

variable (L : Libraries) (disk : Disk)

/-- `open(path, "rb").read()`. -/
def readFile (path : PyStr) : Except PyError Bytes :=
  match disk path with
  | some contents => .ok contents
  | none => .error .osError

/-- `piece_size`. -/
def pieceSize : FilePiece → Except PyError ℕ
  | .fromFile path => do return (← readFile disk path).length
  | .bytes data => .ok data.length

/-- The bytes of a piece: those behind a marker are read. -/
def FilePiece.resolve : FilePiece → Except PyError FilePiece
  | .fromFile path => do return .bytes (← readFile disk path)
  | .bytes data => .ok (.bytes data)

def SplitResult.resolve (result : SplitResult) : Except PyError SplitResult := do
  let content ← result.content.resolve disk
  let structural ← result.structural.resolve disk
  return { result with content, structural }

/-! ### Splitting -/

/-- `HASH_CHUNK_SIZE`. -/
def hashChunkSize : ℕ := 4 * 1024 * 1024

/-- The loop of `_metadata_bytes_for_path` over what has not been read yet. -/
def hashFile (H : HashObject) (h : H.State) (rest : Bytes) : H.State :=
  let chunk := rest.take hashChunkSize
  if chunk = [] then h else hashFile H (H.update h chunk) (rest.drop hashChunkSize)
termination_by rest.length
decreasing_by
  rename_i hchunk
  have hne : rest ≠ [] := by
    rintro rfl
    exact hchunk List.take_nil
  have := List.length_pos_of_ne_nil hne
  rw [List.length_drop, hashChunkSize]
  omega

/-- The text of the metadata. -/
def metadataText (name ext : PyStr) (size : ℕ) (digest : PyStr) : PyStr :=
  pyStr "name=" ++ name ++ pyStr "\text=" ++ ext ++ pyStr "\tsize=" ++ Json.decimal size
    ++ pyStr "\tsha256=" ++ digest

/-- `_metadata_bytes_for_path`. -/
def metadataBytesForPath (path : PyStr) : Except PyError Bytes := do
  let name := basename path
  let ext := L.lower (splitext path)
  let contents ← readFile disk path
  let h := hashFile L.hash L.hash.new contents
  encode (metadataText name ext contents.length (L.hash.hexdigest h))

/-- The text of the pages, or nothing when there is an exception. -/
def extractPdfText (pages : Option (List (Option PyStr))) : Bytes :=
  match pages with
  | none => []
  | some pages =>
    match encode ((pages.map fun text => text.getD []).intersperse ['\n'.toNat]).flatten with
    | .ok text => text
    | .error _ => []

/-- The main part of an Office file, or nothing when there is an exception. -/
def extractOfficeXml (read : PyStr → Option Bytes) (ext : PyStr) : Bytes :=
  ((officeMainPart ext).bind read).getD []

/-- `_extract_pdf_text_from_path`. -/
def extractPdfTextFromPath (path : PyStr) : Bytes := extractPdfText (L.pdfOfPath path)

/-- `_extract_pdf_text_from_bytes`. -/
def extractPdfTextFromBytes (raw : Bytes) : Bytes := extractPdfText (L.pdfOfBytes raw)

/-- `_extract_office_xml_from_path`. -/
def extractOfficeXmlFromPath (path ext : PyStr) : Bytes := extractOfficeXml (L.zipOfPath path) ext

/-- `_extract_office_xml_from_bytes`. -/
def extractOfficeXmlFromBytes (raw : Bytes) (ext : PyStr) : Bytes :=
  extractOfficeXml (L.zipOfBytes raw) ext

/-- `split_file`. -/
def splitFile (path : PyStr) : Except PyError SplitResult := do
  let ext := L.lower (splitext path)
  let metadata ← metadataBytesForPath L disk path
  if ext = pyStr ".pdf" then
    return { content := .bytes (extractPdfTextFromPath L path), structural := .fromFile path
             metadata, reconstructFrom := .structural }
  if ext ∈ zipContainerExts then
    return { content := .bytes (extractOfficeXmlFromPath L path ext), structural := .fromFile path
             metadata, reconstructFrom := .structural }
  if ext ∈ alreadyCompressedExts then
    return { content := .bytes [], structural := .fromFile path
             metadata, reconstructFrom := .structural }
  return { content := .fromFile path, structural := .bytes (← encode ext)
           metadata, reconstructFrom := .content }

/-- `split_bytes`. -/
def splitBytes (raw : Bytes) (nameHint : PyStr) : Except PyError SplitResult := do
  let ext := L.lower (splitext nameHint)
  let digest := L.hash.hexdigest (L.hash.of raw)
  let name := basename nameHint
  let metadata ← encode (metadataText name ext raw.length digest)
  if ext = pyStr ".pdf" then
    return { content := .bytes (extractPdfTextFromBytes L raw), structural := .bytes raw
             metadata, reconstructFrom := .structural }
  if ext ∈ zipContainerExts then
    return { content := .bytes (extractOfficeXmlFromBytes L raw ext), structural := .bytes raw
             metadata, reconstructFrom := .structural }
  if ext ∈ alreadyCompressedExts then
    return { content := .bytes [], structural := .bytes raw
             metadata, reconstructFrom := .structural }
  return { content := .bytes raw, structural := .bytes (← encode ext)
           metadata, reconstructFrom := .content }

variable {L disk} {path : PyStr} {contents : Bytes}

/-! ### The two agree -/

theorem readFile_eq (hdisk : disk path = some contents) : readFile disk path = .ok contents := by
  rw [readFile, hdisk]

/-- **Chunks.**  Hashing a chunk at a time is hashing the whole. -/
theorem hashFile_eq (H : HashObject) (h : H.State) (rest : Bytes) :
    hashFile H h rest = H.update h rest := by
  induction h, rest using hashFile.induct H with
  | case1 h rest chunk hchunk =>
    have hrest : rest = [] := by
      by_contra hne
      have := List.length_pos_of_ne_nil hne
      have hlen : (rest.take hashChunkSize).length = 0 := congrArg List.length hchunk
      rw [List.length_take, hashChunkSize] at hlen
      omega
    rw [hashFile, if_pos hchunk, hrest, H.update_nil]
  | case2 h rest chunk hchunk ih =>
    rw [hashFile, if_neg hchunk, ih, H.update_append, List.take_append_drop]

theorem metadataBytesForPath_eq (hdisk : disk path = some contents) :
    metadataBytesForPath L disk path = encode (metadataText (basename path)
      (L.lower (splitext path)) contents.length (L.hash.hexdigest (L.hash.of contents))) := by
  rw [metadataBytesForPath, readFile_eq hdisk, ok_bind]
  simp only [hashFile_eq]
  rfl

theorem extractPdfText_alike (halike : L.Alike disk) (hdisk : disk path = some contents) :
    extractPdfTextFromPath L path = extractPdfTextFromBytes L contents := by
  rw [extractPdfTextFromPath, extractPdfTextFromBytes, halike.pdf hdisk]

theorem extractOfficeXml_alike (halike : L.Alike disk) (hdisk : disk path = some contents)
    (ext : PyStr) :
    extractOfficeXmlFromPath L path ext = extractOfficeXmlFromBytes L contents ext := by
  rw [extractOfficeXmlFromPath, extractOfficeXmlFromBytes, extractOfficeXml, extractOfficeXml]
  congr 1
  cases officeMainPart ext with
  | none => rfl
  | some part => exact halike.zip hdisk part

theorem resolve_structural (hdisk : disk path = some contents) (content metadata : Bytes) :
    SplitResult.resolve disk ⟨.bytes content, .fromFile path, metadata, .structural⟩
      = .ok ⟨.bytes content, .bytes contents, metadata, .structural⟩ := by
  simp only [SplitResult.resolve, FilePiece.resolve, readFile_eq hdisk, ok_bind]
  rfl

theorem resolve_content (hdisk : disk path = some contents) (structural metadata : Bytes) :
    SplitResult.resolve disk ⟨.fromFile path, .bytes structural, metadata, .content⟩
      = .ok ⟨.bytes contents, .bytes structural, metadata, .content⟩ := by
  simp only [SplitResult.resolve, FilePiece.resolve, readFile_eq hdisk, ok_bind]
  rfl

/-- **From a path and from bytes.**  Once the markers are read the results are the same, and
so is what is raised. -/
theorem resolve_splitFile (halike : L.Alike disk) (hdisk : disk path = some contents) :
    (splitFile L disk path >>= SplitResult.resolve disk) = splitBytes L contents path := by
  rw [splitFile, splitBytes, metadataBytesForPath_eq hdisk]
  cases encode (metadataText (basename path) (L.lower (splitext path)) contents.length
      (L.hash.hexdigest (L.hash.of contents))) with
  | error e => rfl
  | ok metadata =>
    simp only [ok_bind]
    split
    · rw [pure_bind, resolve_structural hdisk, extractPdfText_alike halike hdisk]
      rfl
    split
    · rw [pure_bind, resolve_structural hdisk, extractOfficeXml_alike halike hdisk]
      rfl
    split
    · rw [pure_bind, resolve_structural hdisk]
      rfl
    · cases encode (L.lower (splitext path)) with
      | error e => rfl
      | ok structural =>
        rw [ok_bind, pure_bind, resolve_content hdisk]
        rfl

/-! ### The file is one of the pieces -/

/-- What `split_file` returns: one of the pieces is the marker, and it is the one to
reconstruct from. -/
theorem splitFile_marks {result : SplitResult} (h : splitFile L disk path = .ok result) :
    result.piece result.reconstructFrom = .fromFile path ∧
      (result.reconstructFrom = .content ∨
        result.reconstructFrom = .structural ∧ ∃ data, result.content = .bytes data) := by
  obtain ⟨metadata, -, hrest⟩ := bind_eq_ok.mp h
  split at hrest
  · obtain rfl := Except.ok.inj hrest
    exact ⟨rfl, Or.inr ⟨rfl, _, rfl⟩⟩
  split at hrest
  · obtain rfl := Except.ok.inj hrest
    exact ⟨rfl, Or.inr ⟨rfl, _, rfl⟩⟩
  split at hrest
  · obtain rfl := Except.ok.inj hrest
    exact ⟨rfl, Or.inr ⟨rfl, _, rfl⟩⟩
  · obtain ⟨structural, -, hrest⟩ := bind_eq_ok.mp hrest
    obtain rfl := Except.ok.inj hrest
    exact ⟨rfl, Or.inl rfl⟩

/-- What `split_bytes` returns. -/
theorem splitBytes_original {raw : Bytes} {nameHint : PyStr} {result : SplitResult}
    (h : splitBytes L raw nameHint = .ok result) :
    result.piece result.reconstructFrom = .bytes raw := by
  obtain ⟨metadata, -, hrest⟩ := bind_eq_ok.mp h
  split at hrest
  · obtain rfl := Except.ok.inj hrest
    rfl
  split at hrest
  · obtain rfl := Except.ok.inj hrest
    rfl
  split at hrest
  · obtain rfl := Except.ok.inj hrest
    rfl
  · obtain ⟨structural, -, hrest⟩ := bind_eq_ok.mp hrest
    obtain rfl := Except.ok.inj hrest
    rfl

/-- And its pieces are bytes. -/
theorem splitBytes_bytes {raw : Bytes} {nameHint : PyStr} {result : SplitResult}
    (h : splitBytes L raw nameHint = .ok result) :
    ∃ content structural, result.content = .bytes content ∧
      result.structural = .bytes structural := by
  obtain ⟨metadata, -, hrest⟩ := bind_eq_ok.mp h
  split at hrest
  · obtain rfl := Except.ok.inj hrest
    exact ⟨_, _, rfl, rfl⟩
  split at hrest
  · obtain rfl := Except.ok.inj hrest
    exact ⟨_, _, rfl, rfl⟩
  split at hrest
  · obtain rfl := Except.ok.inj hrest
    exact ⟨_, _, rfl, rfl⟩
  · obtain ⟨structural, -, hrest⟩ := bind_eq_ok.mp hrest
    obtain rfl := Except.ok.inj hrest
    exact ⟨_, _, rfl, rfl⟩

/-- The piece is the file, and has its size. -/
def Original (disk : Disk) (contents : Bytes) (piece : FilePiece) : Prop :=
  piece.resolve disk = .ok (.bytes contents) ∧ pieceSize disk piece = .ok contents.length

theorem original_fromFile (hdisk : disk path = some contents) :
    Original disk contents (.fromFile path) := by
  constructor
  · rw [FilePiece.resolve, readFile_eq hdisk, ok_bind]
    rfl
  · rw [pieceSize, readFile_eq hdisk, ok_bind]
    rfl

/-- **Splitting a file.**  Reading the markers of `split_file` gives what `split_bytes` gives
for the contents and the path; in both the piece to reconstruct from is the contents, and has
their size; and the hash that was taken in chunks is the hash of the contents. -/
theorem splitFile_splitBytes (halike : L.Alike disk) (hdisk : disk path = some contents) :
    (splitFile L disk path >>= SplitResult.resolve disk) = splitBytes L contents path ∧
      (∀ result, splitFile L disk path = .ok result →
        Original disk contents (result.piece result.reconstructFrom)) ∧
      (∀ result, splitBytes L contents path = .ok result →
        Original disk contents (result.piece result.reconstructFrom)) ∧
      L.hash.hexdigest (hashFile L.hash L.hash.new contents)
        = L.hash.hexdigest (L.hash.of contents) := by
  refine ⟨resolve_splitFile halike hdisk, fun result h => ?_, fun result h => ?_, ?_⟩
  · rw [(splitFile_marks h).1]
    exact original_fromFile hdisk
  · rw [splitBytes_original h]
    exact ⟨rfl, rfl⟩
  · rw [hashFile_eq]
    rfl

theorem splitFile_splitBytes_sample :
    let disk : Disk := fun path => if path = pyStr "d/a.TXT" then some [1, 2] else none
    (splitFile Libraries.sample disk (pyStr "d/a.TXT") >>= SplitResult.resolve disk)
      = splitBytes Libraries.sample [1, 2] (pyStr "d/a.TXT") := by
  intro disk
  have halike : Libraries.sample.Alike disk := ⟨fun _ => rfl, fun _ _ => rfl⟩
  exact (splitFile_splitBytes halike rfl).1

end Splitter
