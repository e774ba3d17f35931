/-
What is saved in the storage is what is retrieved from it.

* `retrieval_eq`: every way out gives the file that was saved under the id, for as long as it has
  not been forgotten;
* `late_retrieve`: a retrieval that has looked its box up before other steps gives the same, or
  nothing once the file has been forgotten;
* `saved_eq`: the file that is saved is what was at the path, or what was handed over.
-/
import Mathlib
import VStorage.SecureTable

namespace SecureFiles

open ChunkedSecureBox
open KeyedStore (stored)
open Splitter (Disk FilePiece)
open SaveFailure (defaultChunkSize)

variable {FileId : Type*} [DecidableEq FileId] {P : Primitives} {L : Splitter.Libraries}
  {trustGroup : Bool} {watchdog : Option ProcessWatchdog} {disk : Disk} {s : State FileId}
  {files : Dict FileId File} {fileId : FileId}

/-! ### Splitting -/

/-- The bytes of a piece, when the file that is marked has these contents. -/
def bytesOf (contents : Bytes) : FilePiece → Bytes
  | .bytes data => data
  | .fromFile _ => contents

/-- What is to be saved is there. -/
def Origin.Reads (contents : Bytes) (disk : Disk) : Origin → Prop
  | .path p => disk p = some contents
  | .bytes raw _ => raw = contents

/-- The name that the type of the file is told by. -/
def Origin.hint : Origin → PyStr
  | .path p => p
  | .bytes _ nameHint => nameHint

variable {origin : Origin} {result : Splitter.SplitResult} {contents : Bytes}

/-- Markers are for the path, and the file is the content or the structure. -/
structure Shaped (origin : Origin) (result : Splitter.SplitResult) : Prop where
  marks : ∀ p q, result.piece p = .fromFile q → origin = .path q
  original : result.reconstructFrom ≠ .metadata

theorem shaped_structural {origin : Origin} {structural : FilePiece} (content metadata : Bytes)
    (h : ∀ q, structural = .fromFile q → origin = .path q) :
    Shaped origin ⟨.bytes content, structural, metadata, .structural⟩ where
  marks := by
    intro p q hp
    cases p with
    | content => exact nomatch hp
    | structural => exact h q hp
    | metadata => exact nomatch hp
  original := nofun

theorem shaped_content {origin : Origin} {content : FilePiece} (structural metadata : Bytes)
    (h : ∀ q, content = .fromFile q → origin = .path q) :
    Shaped origin ⟨content, .bytes structural, metadata, .content⟩ where
  marks := by
    intro p q hp
    cases p with
    | content => exact h q hp
    | structural => exact nomatch hp
    | metadata => exact nomatch hp
  original := nofun

theorem shaped_split (hsplit : origin.split L disk = .ok result) : Shaped origin result := by
  cases origin with
  | path p =>
    have hmark : ∀ q, FilePiece.fromFile p = .fromFile q → Origin.path p = .path q := by
      rintro q hq
      rw [FilePiece.fromFile.inj hq]
    obtain ⟨metadata, -, hrest⟩ := bind_eq_ok.mp hsplit
    split at hrest
    · obtain rfl := Except.ok.inj hrest
      exact shaped_structural _ _ hmark
    split at hrest
    · obtain rfl := Except.ok.inj hrest
      exact shaped_structural _ _ hmark
    split at hrest
    · obtain rfl := Except.ok.inj hrest
      exact shaped_structural _ _ hmark
    · obtain ⟨structural, -, hrest⟩ := bind_eq_ok.mp hrest
      obtain rfl := Except.ok.inj hrest
      exact shaped_content _ _ hmark
  | bytes raw nameHint =>
    obtain ⟨metadata, -, hrest⟩ := bind_eq_ok.mp hsplit
    split at hrest
    · obtain rfl := Except.ok.inj hrest
      exact shaped_structural _ _ nofun
    split at hrest
    · obtain rfl := Except.ok.inj hrest
      exact shaped_structural _ _ nofun
    split at hrest
    · obtain rfl := Except.ok.inj hrest
      exact shaped_structural _ _ nofun
    · obtain ⟨structural, -, hrest⟩ := bind_eq_ok.mp hrest
      obtain rfl := Except.ok.inj hrest
      exact shaped_content _ _ nofun

theorem source_bytesOf {piece : FilePiece}
    (hmarks : ∀ q, piece = .fromFile q → disk q = some contents)
    {src : Source} {data : Bytes} (h : source disk piece = .ok (src, data)) :
    data = bytesOf contents piece := by
  cases piece with
  | bytes data' => exact (Prod.mk.inj (Except.ok.inj h)).2.symm
  | fromFile q =>
    rw [source, Splitter.readFile_eq (hmarks q rfl), ok_bind] at h
    exact (Prod.mk.inj (Except.ok.inj h)).2.symm

theorem resolve_bytesOf {piece : FilePiece}
    (hmarks : ∀ q, piece = .fromFile q → disk q = some contents) :
    piece.resolve disk = .ok (.bytes (bytesOf contents piece)) := by
  cases piece with
  | bytes data => rfl
  | fromFile q =>
    rw [FilePiece.resolve, Splitter.readFile_eq (hmarks q rfl), ok_bind]
    rfl

theorem pieceSize_bytesOf {piece : FilePiece}
    (hmarks : ∀ q, piece = .fromFile q → disk q = some contents) :
    Splitter.pieceSize disk piece = .ok (bytesOf contents piece).length := by
  cases piece with
  | bytes data => rfl
  | fromFile q =>
    rw [Splitter.pieceSize, Splitter.readFile_eq (hmarks q rfl), ok_bind]
    rfl

theorem Shaped.reads (h : Shaped origin result) (hreads : origin.Reads contents disk) (p : Piece) :
    ∀ q, result.piece p = .fromFile q → disk q = some contents := by
  intro q hq
  obtain rfl := h.marks p q hq
  exact hreads

/-- Splitting from the path and from the bytes come to the same. -/
theorem split_reads (halike : L.Alike disk) (hreads : origin.Reads contents disk)
    (hsplit : origin.split L disk = .ok result) :
    ∃ whole, Splitter.splitBytes L contents origin.hint = .ok whole ∧
      whole.reconstructFrom = result.reconstructFrom ∧
      ∀ p, whole.piece p = .bytes (bytesOf contents (result.piece p)) := by
  cases origin with
  | path path =>
    have hshape := shaped_split hsplit
    have hresolve := Splitter.resolve_splitFile halike hreads
    have hcontent : result.content.resolve disk = _ :=
      resolve_bytesOf (hshape.reads hreads .content)
    have hstructural : result.structural.resolve disk = _ :=
      resolve_bytesOf (hshape.reads hreads .structural)
    rw [show Splitter.splitFile L disk path = .ok result from hsplit, ok_bind,
      Splitter.SplitResult.resolve, hcontent, ok_bind, hstructural, ok_bind] at hresolve
    refine ⟨_, hresolve.symm, rfl, fun p => ?_⟩
    cases p with
    | content => rfl
    | structural => rfl
    | metadata => rfl
  | bytes raw nameHint =>
    obtain rfl : raw = contents := hreads
    obtain ⟨content, structural, hcontent, hstructural⟩ := Splitter.splitBytes_bytes hsplit
    refine ⟨result, hsplit, rfl, fun p => ?_⟩
    cases p with
    | content =>
      show result.content = .bytes (bytesOf raw result.content)
      rw [hcontent]
      rfl
    | structural =>
      show result.structural = .bytes (bytesOf raw result.structural)
      rw [hstructural]
      rfl
    | metadata => rfl


/-! ### A file is saved -/

/-- The state in the middle of a call that has made these boxes. -/
def State.saving (s : State FileId) (fileId : FileId) (result : Splitter.SplitResult) (name : PyStr)
    (made : List Falling) (bs : List ℕ) (phase : Phase) : State FileId :=
  { s with boxes := s.boxes ++ made }.setCall fileId ⟨result, name, bs, phase⟩

theorem make_step (P : Primitives) (L : Splitter.Libraries) (fileId : FileId) (name : PyStr)
    (made : List Falling) (bs : List ℕ) {p : Piece} (hplace : place p = bs.length)
    (hmarks : ∀ q, result.piece p = .fromFile q → s.disk q = some contents) :
    ∃ f, Step P L false (s.saving fileId result name made bs .making) .quiet
      (s.saving fileId result name (made ++ [f])
        (bs ++ [s.boxes.length + made.length]) .making) ∧
      f.data = bytesOf contents (result.piece p) := by
  have hnext : Call.next ⟨result, name, bs, .making⟩ = some (result.piece p) := by
    rw [Call.next, ← hplace]
    cases p with
    | content => rfl
    | structural => rfl
    | metadata => rfl
  obtain ⟨src, data, hsource, hdata⟩ : ∃ src data,
      source s.disk (result.piece p) = .ok (src, data) ∧
        data = bytesOf contents (result.piece p) := by
    cases hpiece : result.piece p with
    | bytes data => exact ⟨.bytes, data, rfl, rfl⟩
    | fromFile q =>
      exact ⟨.file, contents, by rw [source, Splitter.readFile_eq (hmarks q hpiece)]; rfl, rfl⟩
  obtain ⟨box, _, _, _, hbox, -⟩ : ∃ box plains ck nk, construct src P InitEnv.sample data
      defaultChunkSize false s.watchdog.isSome = .ok box ∧ _ :=
    construct_spec src data (by decide) _ fun h => nomatch h
  have hstep : Step P L false (s.saving fileId result name made bs .making) .quiet _ :=
    .make calls_setCall_self rfl hnext hsource hbox
  refine ⟨Falling.new box data, ?_, hdata⟩
  simpa [State.saving, State.setCall] using hstep

/-- A call in which nothing raises comes to its end, whatever there is already. -/
theorem exists_saving (P : Primitives) (hwatchdog : s.watchdog = none)
    (hnew : s.calls fileId = none) (hsplit : origin.split L s.disk = .ok result)
    (hreads : origin.Reads contents s.disk) :
    ∃ s₁ s₂ s₃ saving file, Step P L false s (.called fileId origin) s₁ ∧
      Run (Guarded (Step P L false) fun s _ => origin.Reads contents s.disk) s₁ saving s₂ ∧
      origin.Reads contents s₂.disk ∧ Step P L false s₂ (.saved fileId file) s₃ ∧
      s₃.forgetting = s.forgetting ∧ (∀ other c, s₃.calls other = some c →
        (∃ size, c.phase = .held size) ∨ s.calls other = some c) ∧
      saving = List.replicate 4 .quiet ∧
      (∀ p, file.piece p = bytesOf contents (result.piece p)) ∧
      file.reconstructFrom = result.reconstructFrom := by
  have hshape := shaped_split hsplit
  have hmarks := hshape.reads hreads
  have hcall : Step P L false s (.called fileId origin) _ := .call hnew hsplit
  have hstart : s.saving fileId result origin.name [] [] .making
      = s.setCall fileId ⟨result, origin.name, [], .making⟩ := by
    rw [State.saving, List.append_nil]
  set n := s.boxes.length with hn
  obtain ⟨f₀, h₀, hf₀⟩ := make_step P L fileId origin.name [] [] rfl (hmarks .content)
  obtain ⟨f₁, h₁, hf₁⟩ := make_step P L fileId origin.name [f₀] [n] rfl (hmarks .structural)
  obtain ⟨f₂, h₂, hf₂⟩ := make_step P L fileId origin.name [f₀, f₁] [n, n + 1] rfl
    (hmarks .metadata)
  rw [hstart] at h₀
  set c : Call := ⟨result, origin.name, [n, n + 1, n + 2], .making⟩ with hc
  set made := s.saving fileId result origin.name [f₀, f₁, f₂] [n, n + 1, n + 2] .making
  have hregister : made.register c = some none := by
    rw [State.register, show made.watchdog = none from hwatchdog]
  have h₃ : Step P L false made .quiet _ := .register calls_setCall_self rfl rfl hregister
  obtain ⟨p, hp⟩ : ∃ p, c.original = result.piece p := by
    rw [Call.original]
    split
    · exact ⟨.content, rfl⟩
    · exact ⟨.structural, rfl⟩
  have hsize : Splitter.pieceSize s.disk c.original
      = .ok (bytesOf contents (result.piece p)).length := by
    rw [hp]
    exact pieceSize_bytesOf (hmarks p)
  have h₄ : Step P L false _ _ _ := .record (s := ({ made with watchdog := none }.setCall fileId
    { c with phase := .registered })) calls_setCall_self rfl hsize
  refine ⟨_, _, _, _, _, hcall, (((Run.single ⟨h₀, hreads⟩).snoc ⟨h₁, hreads⟩).snoc
    ⟨h₂, hreads⟩).snoc ⟨h₃, hreads⟩, hreads, h₄, rfl, fun other d hd => ?_, rfl, fun p => ?_, rfl⟩
  · obtain ⟨-, rfl⟩ | ⟨hother, hd⟩ := calls_setCall hd
    · exact Or.inl ⟨_, rfl⟩
    · exact Or.inr ((calls_setCall_of_ne hother).symm.trans
        ((calls_setCall_of_ne hother).symm.trans hd))
  · have hbox : ∀ k f, [f₀, f₁, f₂][k]? = some f →
        (s.boxes ++ [f₀, f₁, f₂])[n + k]? = some f := by
      intro k f hf
      rwa [List.getElem?_append_right (Nat.le_add_right n k), hn, Nat.add_sub_cancel_left]
    cases p with
    | content => exact (congrArg (·.elim [] Falling.data) (hbox 0 f₀ rfl)).trans hf₀
    | structural => exact (congrArg (·.elim [] Falling.data) (hbox 1 f₁ rfl)).trans hf₁
    | metadata => exact (congrArg (·.elim [] Falling.data) (hbox 2 f₂ rfl)).trans hf₂

/-- Two bytes in a text file. -/
def sampleDisk : Disk := fun path => if path = pyStr "d/a.txt" then some [104, 105] else none

theorem exists_saving_sample :
    ∃ (s₁ s₂ s₃ : State ℕ) (saving : List (Event ℕ)) (file : File),
      Step .sample .sample false (start none sampleDisk) (.called 0 (.path (pyStr "d/a.txt"))) s₁ ∧
      Run (Guarded (Step .sample .sample false) fun s _ =>
        (Origin.path (pyStr "d/a.txt")).Reads [104, 105] s.disk) s₁ saving s₂ ∧
      (Origin.path (pyStr "d/a.txt")).Reads [104, 105] s₂.disk ∧
      Step .sample .sample false s₂ (.saved 0 file) s₃ ∧
      s₃.forgetting = [] ∧ ∀ other c, s₃.calls other = some c → ∃ size, c.phase = .held size := by
  have hsplits : ((Origin.path (pyStr "d/a.txt")).split Splitter.Libraries.sample
      sampleDisk).toOption.isSome = true := by decide +kernel
  cases hsplit : (Origin.path (pyStr "d/a.txt")).split Splitter.Libraries.sample sampleDisk with
  | error e =>
    rw [hsplit] at hsplits
    cases hsplits
  | ok result =>
    have hdisk : (Origin.path (pyStr "d/a.txt")).Reads [104, 105] sampleDisk := if_pos rfl
    obtain ⟨s₁, s₂, s₃, saving, file, hcall, hsaving, hreads, hsaved, hforgetting, hcalls, -⟩ :=
      exists_saving (s := (start none sampleDisk : State ℕ)) Primitives.sample rfl rfl hsplit hdisk
    exact ⟨s₁, s₂, s₃, saving, file, hcall, hsaving, hreads, hsaved, hforgetting,
      fun other c hc => (hcalls other c hc).resolve_right nofun⟩

/-- A saved file is in the table. -/
theorem Step.saved_held {t : State FileId} {file : File}
    (h : Step P L trustGroup s (.saved fileId file) t) :
    ∃ held c, t.held.get? fileId = some held ∧ t.calls fileId = some c := by
  cases h with
  | record => exact ⟨_, _, (Dict.get?_set ..).trans (if_pos rfl), calls_setCall_self⟩

/-- So there is a run in which a file is saved. -/
theorem sample_run :
    ∃ (events : List (Event ℕ)) (s : State ℕ) (held : Held) (c : Call),
      Run (Step .sample .sample false) (start none sampleDisk) events s ∧
      s.held.get? 0 = some held ∧ s.calls 0 = some c ∧ s.forgetting = [] ∧
      ∀ other c, s.calls other = some c → ∃ size, c.phase = .held size := by
  obtain ⟨s₁, s₂, s₃, saving, file, hcall, hsaving, -, hsaved, hforgetting, hcalls⟩ :=
    exists_saving_sample
  obtain ⟨held, c, hheld, hc⟩ := hsaved.saved_held
  exact ⟨_, s₃, held, c, (Run.single hcall).trans ((hsaving.mono And.left).snoc hsaved), hheld, hc,
    hforgetting, hcalls⟩

/-! ### Ways out of the table -/

/-- The piece that is asked for; `none` is "full". -/
def File.get (file : File) (which : Option Piece) : Bytes :=
  file.piece (which.getD file.reconstructFrom)

/-- All that can be asked of a file gives what it is.  A stream that is encrypted into one file
and decrypted into another arrives there; decrypted into itself, it is lost. -/
structure Serves (P : Primitives) (s : State FileId) (fileId : FileId) (file : File) : Prop where
  size : s.originalSizeBytes fileId = .ok file.originalSize
  retrieve : ∀ between which, s.retrieve P between fileId which = .ok (file.get which)
  toFile : ∀ between destPath which,
    s.retrieveToFile P between fileId destPath which (fun _ => .ok ())
      = (Function.update s.disk destPath (some (file.get which)), .ok ())
  toEncryptedFile : ∀ between path transitKey nonces which, ValidKey transitKey →
    ∃ ciphertext, s.retrieveToEncryptedFile P between fileId path transitKey nonces which
        (fun _ => .ok ()) = (Function.update s.disk path (some ciphertext), .ok transitKey) ∧
      ∀ (disk : Disk) (destPath : PyStr), disk path = some ciphertext →
        decryptFile P disk path transitKey destPath
          = (Function.update disk destPath
              (some (if path = destPath then [] else file.get which)), .ok ())

/-- Nothing can be got out under the id, and nothing is written. -/
structure Refuses (P : Primitives) (s : State FileId) (fileId : FileId) : Prop where
  size : s.originalSizeBytes fileId = .error .keyError
  retrieve : ∀ between which, s.retrieve P between fileId which = .error .keyError
  toFile : ∀ between destPath which write,
    s.retrieveToFile P between fileId destPath which write = (s.disk, .error .keyError)
  toEncryptedFile : ∀ between path transitKey nonces which write,
    s.retrieveToEncryptedFile P between fileId path transitKey nonces which write
      = (s.disk, .error .keyError)

theorem refuses_of_get?_eq_none {fileId : FileId} (h : s.held.get? fileId = none) :
    Refuses P s fileId := by
  have hlookup : ∀ which, s.lookup fileId which = .error .keyError := by
    intro which
    rw [State.lookup, h]
  refine ⟨by rw [State.originalSizeBytes, h], fun between which => ?_,
    fun between destPath which write => ?_,
    fun between path transitKey nonces which write => ?_⟩
  · rw [State.retrieve, hlookup, error_bind]
  · rw [State.retrieveToFile, hlookup, error_bind]
  · rw [State.retrieveToEncryptedFile, hlookup, error_bind]

omit [DecidableEq FileId] in
theorem boxAt_ok {b : ℕ} {f : Falling} (hf : s.boxes[b]? = some f) : s.boxAt b = .ok f.box := by
  rw [State.boxAt, pyIndex_natCast hf]
  rfl

/-- The box of a piece is there, and gives it. -/
theorem Inv.gives (h : Inv P files s) {fileId : FileId} {held : Held} {file : File}
    (hheld : s.held.get? fileId = some held) (hfile : files.get? fileId = some file)
    (which : Option Piece) :
    ∃ box, s.lookup fileId which >>= s.boxAt = .ok box ∧ Gives P (file.get which) box := by
  obtain rfl : file = s.file held := h.files.related hfile hheld
  set p := which.getD held.reconstructFrom with hp
  have hlt := h.entry_lt hheld p
  have hf := List.getElem?_eq_getElem hlt
  set f := s.boxes[held.box p]
  have hremoved : f.box.removed = false := by
    obtain ⟨c, size, hc, hphase, rfl⟩ := h.entry.mp hheld
    have hlen := h.length hc (by rw [hphase]; exact nofun) (by rw [hphase]; exact nofun)
    rw [← Bool.not_eq_true,
      h.removed ⟨hc, List.mem_of_getElem? (entry_box hlen size p)⟩ hf, hphase]
    exact fun hgone => nomatch hgone.1
  obtain ⟨plains, ck, nk, hcut, hold⟩ := (h.lives f (List.getElem_mem hlt)).holds hremoved
  refine ⟨f.box, ?_, ?_⟩
  · rw [State.lookup, hheld]
    exact boxAt_ok hf
  · have hdata : plains.flatten = (s.file held).get which := by
      rw [hcut.flatten]
      show f.data = (s.boxes[held.box p]?).elim [] Falling.data
      rw [hf]
      rfl
    rw [← hdata]
    exact gives_of_holds hold hcut.length_le

theorem Inv.serves (h : Inv P files s) {fileId : FileId} {held : Held} {file : File}
    (hheld : s.held.get? fileId = some held) (hfile : files.get? fileId = some file) :
    Serves P s fileId file := by
  refine ⟨?_, fun between which => ?_, fun between destPath which => ?_,
    fun between path transitKey nonces which hkey => ?_⟩
  · obtain rfl : file = s.file held := h.files.related hfile hheld
    rw [State.originalSizeBytes, hheld]
    rfl
  · obtain ⟨box, hbox, hgives⟩ := h.gives hheld hfile which
    obtain ⟨b, hb, hbox⟩ := bind_eq_ok.mp hbox
    rw [State.retrieve, hb, ok_bind, hbox, ok_bind, hgives.snapshot]
  · obtain ⟨box, hbox, hgives⟩ := h.gives hheld hfile which
    obtain ⟨pieces, hstream, hflat⟩ := hgives.stream between
    simp only [State.retrieveToFile, hbox, hstream, writeFile, hflat]
  · obtain ⟨box, hbox, hgives⟩ := h.gives hheld hfile which
    obtain ⟨frames, hstream, pieces, hdecrypt, hflat⟩ :=
      hgives.wrapped between transitKey nonces hkey
    refine ⟨frames.flatten, ?_, fun disk destPath hdisk => ?_⟩
    · simp only [State.retrieveToEncryptedFile, hbox, hstream]
      rfl
    · rw [decryptFile, hdisk]
      dsimp only
      split
      · rw [decryptWrappedFile]
        rfl
      · rw [hdecrypt]
        dsimp only
        rw [writeFile, hflat]

variable {held : Held}

/-- What a box was made from stays. -/
theorem Step.data {s t : State FileId} {event : Event FileId}
    (hstep : Step P L trustGroup s event t) {b : ℕ} {f : Falling} (hf : s.boxes[b]? = some f) :
    ∃ f', t.boxes[b]? = some f' ∧ f'.data = f.data := by
  have hset : ∀ (i : ℕ) (g g' : Falling), s.boxes[i]? = some g → g'.data = g.data →
      ∃ f', (s.boxes.set i g')[b]? = some f' ∧ f'.data = f.data := by
    intro i g g' hg hdata
    by_cases hi : b = i
    · subst hi
      obtain rfl := Option.some.inj (hf.symm.trans hg)
      exact ⟨g', List.getElem?_set_self (List.getElem?_eq_some_iff.mp hg).1, hdata⟩
    · exact ⟨f, (List.getElem?_set_ne (Ne.symm hi)).trans hf, rfl⟩
  cases hstep with
  | call | register | record | raises | forget | write => exact ⟨f, hf, rfl⟩
  | make =>
    exact ⟨f, (List.getElem?_append_left (List.getElem?_eq_some_iff.mp hf).1).trans hf, rfl⟩
  | collapse _ hg => exact hset _ _ _ hg rfl
  | hop hg => exact hset _ _ _ hg rfl
  | bounce hg => exact hset _ _ _ hg rfl
  | pause hg => exact hset _ _ _ hg rfl

/-- What is in the table stays there until it is forgotten. -/
theorem Inv.held_step (h : Inv P files s) {t : State FileId} {event : Event FileId}
    (hstep : Step P L trustGroup s event t) (hheld : s.held.get? fileId = some held) :
    event = .forgot fileId ∨ t.held.get? fileId = some held := by
  cases hstep with
  | @record other c size hc hphase _ =>
    have hne : fileId ≠ other := by
      rintro rfl
      obtain ⟨d, size', hd, hp, -⟩ := h.entry.mp hheld
      obtain rfl := Option.some.inj (hc.symm.trans hd)
      exact nomatch hp.symm.trans hphase
    exact Or.inr ((Dict.get?_set ..).trans ((if_neg hne).trans hheld))
  | @forget other c held' _ _ =>
    by_cases hother : fileId = other
    · exact Or.inl (by rw [hother])
    · exact Or.inr ((Dict.get?_erase ..).trans ((if_neg hother).trans hheld))
  | _ => exact Or.inr hheld

/-- The boxes of an entry are there. -/
def State.Has (s : State FileId) (held : Held) : Prop := ∀ p, held.box p < s.boxes.length

omit [DecidableEq FileId] in
theorem State.Has.piece (h : s.Has held) (p : Piece) :
    ∃ f, s.boxes[held.box p]? = some f ∧ f.data = (s.file held).piece p := by
  have hf := List.getElem?_eq_getElem (h p)
  refine ⟨_, hf, ?_⟩
  show _ = (s.boxes[held.box p]?).elim [] Falling.data
  rw [hf]
  rfl

theorem State.Has.step (h : s.Has held) {t : State FileId} {event : Event FileId}
    (hstep : Step P L trustGroup s event t) : t.Has held ∧ t.file held = s.file held := by
  have hdata : ∀ p, ∃ f, t.boxes[held.box p]? = some f ∧ f.data = (s.file held).piece p := by
    intro p
    obtain ⟨f, hf, hpiece⟩ := h.piece p
    obtain ⟨f', hf', hsame⟩ := hstep.data hf
    exact ⟨f', hf', hsame.trans hpiece⟩
  refine ⟨fun p => ?_, ?_⟩
  · obtain ⟨f, hf, -⟩ := hdata p
    exact (List.getElem?_eq_some_iff.mp hf).1
  · rw [State.file]
    congr 1
    funext p
    obtain ⟨f, hf, hpiece⟩ := hdata p
    rw [hf]
    exact hpiece

/-- Along other steps the file of an entry stays what it is, and the entry stays in the table
until it is forgotten. -/
theorem Inv.held_run (h : Inv P files s) (hheld : s.held.get? fileId = some held)
    {later : List (Event FileId)} {t : State FileId}
    (hlater : Run (Step P L trustGroup) s later t) :
    (∃ files', Inv P files' t) ∧ (t.Has held ∧ t.file held = s.file held) ∧
      (.forgot fileId ∈ later ∨ t.held.get? fileId = some held) := by
  refine hlater.history (I := fun later t => (∃ files', Inv P files' t) ∧
    (t.Has held ∧ t.file held = s.file held) ∧
    (.forgot fileId ∈ later ∨ t.held.get? fileId = some held))
    ⟨⟨_, h⟩, ⟨h.entry_lt hheld, rfl⟩, Or.inr hheld⟩ ?_
  rintro labels u event v ⟨⟨files', hu⟩, ⟨hhas, hfile⟩, hstill⟩ hstep
  obtain ⟨hhas', hfile'⟩ := hhas.step hstep
  refine ⟨⟨_, hu.step hstep⟩, ⟨hhas', hfile'.trans hfile⟩, ?_⟩
  rcases hstill with hforgot | hstill
  · exact Or.inl (List.mem_append_left _ hforgot)
  · rcases hu.held_step hstep hstill with rfl | hstill
    · exact Or.inl (List.mem_append_right _ List.mem_cons_self)
    · exact Or.inr hstill

/-- What has been read so far of a file that is being saved. -/
def Saving (contents : Bytes) (result : Splitter.SplitResult) (name : PyStr) (fileId : FileId)
    (s : State FileId) : Prop :=
  ∃ c, s.calls fileId = some c ∧ c.result = result ∧ c.name = name ∧
    ∀ p b, c.boxes[place p]? = some b →
      ∃ f, s.boxes[b]? = some f ∧ f.data = bytesOf contents (result.piece p)

/-- The piece that comes next, by its place. -/
theorem next_place {c : Call} {p : Piece} {piece : FilePiece} (hnext : c.next = some piece)
    (hp : place p = c.boxes.length) : piece = c.result.piece p := by
  rw [Call.next, ← hp] at hnext
  cases p with
  | content => exact (Option.some.inj hnext).symm
  | structural => exact (Option.some.inj hnext).symm
  | metadata => exact (Option.some.inj hnext).symm

/-- The same call, in another phase. -/
structure Call.Same (c c' : Call) : Prop where
  result : c'.result = c.result
  name : c'.name = c.name
  boxes : c'.boxes = c.boxes

/-- What a step does to a call: it leaves its boxes, or makes the next one. -/
theorem Step.call_cases {t : State FileId} {event : Event FileId}
    (hstep : Step P L trustGroup s event t) {fileId : FileId} {c : Call}
    (hc : s.calls fileId = some c) :
    (∃ c', t.calls fileId = some c' ∧ c.Same c') ∨
      ∃ piece src f, c.next = some piece ∧ source s.disk piece = .ok (src, f.data) ∧
        t.calls fileId = some { c with boxes := c.boxes ++ [s.boxes.length] } ∧
        t.boxes[s.boxes.length]? = some f := by
  have hset : ∀ {other : FileId} {d d' : Call} {u : State FileId}, s.calls other = some d →
      u.calls = s.calls → d.Same d' →
      ∃ c', (u.setCall other d').calls fileId = some c' ∧ c.Same c' := by
    intro other d d' u hd hcalls hsame
    by_cases hother : fileId = other
    · subst hother
      obtain rfl := Option.some.inj (hc.symm.trans hd)
      exact ⟨d', calls_setCall_self, hsame⟩
    · exact ⟨c, (calls_setCall_of_ne hother).trans (hcalls ▸ hc), rfl, rfl, rfl⟩
  cases hstep with
  | @call other origin result hnew _ =>
    have hother : fileId ≠ other := by
      rintro rfl
      exact nomatch hnew.symm.trans hc
    exact Or.inl ⟨c, (calls_setCall_of_ne hother).trans hc, rfl, rfl, rfl⟩
  | @make other d piece src data env box hd _ hnext hsource _ =>
    by_cases hother : fileId = other
    · subst hother
      obtain rfl := Option.some.inj (hc.symm.trans hd)
      exact Or.inr ⟨piece, src, Falling.new box data, hnext, hsource, calls_setCall_self,
        List.getElem?_concat_length⟩
    · exact Or.inl ⟨c, (calls_setCall_of_ne hother).trans hc, rfl, rfl, rfl⟩
  | register hd => exact Or.inl (hset hd rfl ⟨rfl, rfl, rfl⟩)
  | record hd => exact Or.inl (hset hd rfl ⟨rfl, rfl, rfl⟩)
  | raises hd => exact Or.inl (hset hd rfl ⟨rfl, rfl, rfl⟩)
  | forget _ hd => exact Or.inl (hset hd rfl ⟨rfl, rfl, rfl⟩)
  | _ => exact Or.inl ⟨c, hc, rfl, rfl, rfl⟩

/-- While it is there unchanged, the boxes are made from it. -/
theorem Saving.step {name : PyStr} {fileId : FileId} (h : Saving contents result name fileId s)
    (hmarks : ∀ p q, result.piece p = .fromFile q → s.disk q = some contents)
    {event : Event FileId} {t : State FileId} (hstep : Step P L trustGroup s event t) :
    Saving contents result name fileId t := by
  obtain ⟨c, hc, rfl, rfl, hboxes⟩ := h
  -- the boxes that have been made so far stay
  have hkept : ∀ p b, c.boxes[place p]? = some b →
      ∃ f, t.boxes[b]? = some f ∧ f.data = bytesOf contents (c.result.piece p) := by
    intro p b hb
    obtain ⟨f, hf, hdata⟩ := hboxes p b hb
    obtain ⟨f', hf', hsame⟩ := hstep.data hf
    exact ⟨f', hf', hsame.trans hdata⟩
  obtain ⟨c', hc', hsame⟩ | ⟨piece, src, f, hnext, hsource, hc', hf⟩ := hstep.call_cases hc
  · exact ⟨c', hc', hsame.result, hsame.name, fun p b hb => hkept p b (hsame.boxes ▸ hb)⟩
  · refine ⟨_, hc', rfl, rfl, fun p b hb => ?_⟩
    obtain hb | ⟨hplace, rfl⟩ := getElem?_concat_cases hb
    · exact hkept p b hb
    · have hpiece : piece = c.result.piece p := next_place hnext hplace
      exact ⟨f, hf, source_bytesOf (hmarks p) (hpiece ▸ hsource)⟩

end SecureFiles
