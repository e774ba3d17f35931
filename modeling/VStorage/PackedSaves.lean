/-
`packed_system.py`: saves that fail half way.

`_hold` compresses and packs three pieces into three shared boxes, one after the other, and
then enters the file into the table.  Compression raises on a marker of `split_file`, and may
raise for reasons of its own; packing may run out of memory.  The boxes make hops in between.

* `holdPieces_ok`: the boxes passed so far have an entry for the file.
* `hold_untouched_iff`: when `_hold` raises, boxes and table are as before exactly when it has
  stopped before anything was packed.
-/
import Mathlib
import VStorage.PackedBox
import VStorage.Splitter

/-- `PackedVirtualStorage`. -/
structure PackedVirtualStorage (FileId : Type*) where
  box : Piece → PackedFallingBox FileId
  entries : Dict FileId (Piece × PyStr)

/-- Where memory runs out in `add`: in extending the live buffer, or the other, or in the
index. -/
inductive AddFault
  | active
  | other
  | index
  deriving DecidableEq

/-- What goes wrong: what `lzma.compress` raises on a piece, and where `add` of it runs out of
memory. -/
structure Faults where
  compress : Piece → Option PyError
  add : Piece → Option AddFault

def Faults.none : Faults := ⟨fun _ => .none, fun _ => .none⟩

namespace PackedFallingBox

variable {Name : Type*}

/-- `add`, as far as it gets; the flag stays set. -/
def addFailing (data : Bytes) (fault : AddFault) (box : PackedFallingBox Name) :
    PackedFallingBox Name :=
  let zeros := List.replicate data.length 0
  match fault, box.active with
  | .active, _ => { box with paused := true }
  | .other, .a => { box with boxA := box.boxA ++ data, paused := true }
  | .other, .b => { box with boxB := box.boxB ++ data, paused := true }
  | .index, .a => { box with boxA := box.boxA ++ data, boxB := box.boxB ++ zeros, paused := true }
  | .index, .b => { box with boxB := box.boxB ++ data, boxA := box.boxA ++ zeros, paused := true }

/-- The same buffers, live side and index. -/
def SameData (box box' : PackedFallingBox Name) : Prop :=
  box'.boxA = box.boxA ∧ box'.boxB = box.boxB ∧ box'.active = box.active ∧ box'.index = box.index

/-- The live buffer is the longer one, and the next hop makes the other one as long.  Buffers of
one length are so, and an `add` that has run out of memory may leave them so. -/
def Level (box : PackedFallingBox Name) : Prop :=
  match box.active with
  | .a => box.boxB.length ≤ box.boxA.length
  | .b => box.boxA.length ≤ box.boxB.length ∧
      box.boxB.length ≤ (box.boxA.length + boxSize - 1) / boxSize * boxSize

theorem level_of_even {box : PackedFallingBox Name} (h : box.boxA.length = box.boxB.length) :
    box.Level := by
  rw [Level]
  cases box.active with
  | a => exact h.ge
  | b => exact ⟨h.le, h ▸ le_chunks _⟩

/-- How much the longer buffer holds. -/
def room (box : PackedFallingBox Name) : ℕ := max box.boxA.length box.boxB.length

/-- A hop levels the buffers, and the longer one stays as long as it is. -/
theorem Level.fall {box : PackedFallingBox Name} (h : box.Level) :
    box.fall.Level ∧ box.fall.room = box.room := by
  obtain ⟨boxA, boxB, active, index, hops, paused⟩ := box
  rw [PackedFallingBox.fall]
  split
  · exact ⟨h, rfl⟩
  · cases active with
    | a =>
      have hle : boxB.length ≤ boxA.length := h
      have hlen := length_copyChunks boxA.length boxA boxB
      rw [min_eq_left (le_chunks _), max_eq_right hle] at hlen
      refine ⟨level_of_even hlen.symm, ?_⟩
      simp only [room, hlen]
      omega
    | b =>
      have hle : boxA.length ≤ boxB.length := h.1
      have hlen := length_copyChunks boxA.length boxB boxA
      rw [min_eq_left h.2, max_eq_right hle] at hlen
      refine ⟨level_of_even hlen, ?_⟩
      simp only [room, hlen]
      omega

/-- An `add` that gets further than the first buffer, with bytes to add, shows in the longer
one. -/
theorem room_addFailing {fault : AddFault} {box : PackedFallingBox Name} (h : box.Level)
    (data : Bytes) (hfault : fault ≠ .active) :
    box.room + data.length ≤ (box.addFailing data fault).room := by
  obtain ⟨boxA, boxB, active, index, hops, paused⟩ := box
  cases active with
  | a =>
    have hle : boxB.length ≤ boxA.length := h
    cases fault with
    | active => exact absurd rfl hfault
    | other => simp only [room, addFailing, List.length_append]; omega
    | index => simp only [room, addFailing, List.length_append, List.length_replicate]; omega
  | b =>
    have hle : boxA.length ≤ boxB.length := h.1
    cases fault with
    | active => exact absurd rfl hfault
    | other => simp only [room, addFailing, List.length_append]; omega
    | index => simp only [room, addFailing, List.length_append, List.length_replicate]; omega

/-- One that does not, or has no bytes to add, does not show. -/
theorem sameData_addFailing {data : Bytes} {fault : AddFault} (box : PackedFallingBox Name)
    (h : fault = .active ∨ data = []) : box.SameData (box.addFailing data fault) := by
  rcases h with rfl | rfl
  · exact ⟨rfl, rfl, rfl, rfl⟩
  · obtain ⟨boxA, boxB, active, index, hops, paused⟩ := box
    cases fault <;> cases active <;>
      simp [SameData, addFailing]

theorem index_addFailing (data : Bytes) (fault : AddFault) (box : PackedFallingBox Name) :
    (box.addFailing data fault).index = box.index := by
  obtain ⟨boxA, boxB, active, index, hops, paused⟩ := box
  cases fault <;> cases active <;> rfl

end PackedFallingBox

namespace PackedVirtualStorage

variable {FileId : Type*}

/-- `__init__`. -/
def new : PackedVirtualStorage FileId := ⟨fun _ => .new, .empty⟩

def setBox (which : Piece) (box : PackedFallingBox FileId) (s : PackedVirtualStorage FileId) :
    PackedVirtualStorage FileId :=
  { s with box := Function.update s.box which box }

/-- Boxes make hops. -/
def falls (hops : List Piece) (s : PackedVirtualStorage FileId) : PackedVirtualStorage FileId :=
  hops.foldl (fun s which => s.setBox which (s.box which).fall) s

section Operations

variable [DecidableEq FileId] (P : Primitives)

/-- `_compress`. -/
def compress (F : Faults) (which : Piece) : Splitter.FilePiece → Except PyError Bytes
  | .fromFile _ => .error .typeError
  | .bytes data =>
    if data = [] then .ok []
    else match F.compress which with
      | some e => .error e
      | none => .ok (P.pack data)

/-- A piece is compressed and packed; `hops` are those before the box is locked. -/
def holdPiece (F : Faults) (fileId : FileId) (which : Piece) (piece : Splitter.FilePiece)
    (hops : List Piece) (s : PackedVirtualStorage FileId) :
    PackedVirtualStorage FileId × Except PyError Unit :=
  match compress P F which piece with
  | .error e => (s, .error e)
  | .ok data =>
    let s := s.falls hops
    match F.add which with
    | none => (s.setBox which ((s.box which).add fileId data), .ok ())
    | some fault => (s.setBox which ((s.box which).addFailing data fault), .error .memoryError)

/-- The pieces in turn, up to the first that raises. -/
def holdPieces (F : Faults) (fileId : FileId) (result : Splitter.SplitResult)
    (hops : Piece → List Piece) : List Piece → PackedVirtualStorage FileId →
    PackedVirtualStorage FileId × Except PyError Unit
  | [], s => (s, .ok ())
  | which :: rest, s =>
    match holdPiece P F fileId which (result.piece which) (hops which) s with
    | (s, .error e) => (s, .error e)
    | (s, .ok ()) => holdPieces F fileId result hops rest s

/-- `_hold`, with the id that `uuid4` gives. -/
def hold (F : Faults) (result : Splitter.SplitResult) (name : PyStr) (fileId : FileId)
    (hops : Piece → List Piece) (s : PackedVirtualStorage FileId) :
    PackedVirtualStorage FileId × Except PyError Unit :=
  match holdPieces P F fileId result hops [.content, .structural, .metadata] s with
  | (s, .error e) => (s, .error e)
  | (s, .ok ()) =>
    ({ s with entries := s.entries.set fileId (result.reconstructFrom, name) }, .ok ())

/-! ### What a failed save leaves -/

/-- The id is a new one, and the buffers of each box are level. -/
structure Ready (s : PackedVirtualStorage FileId) (fileId : FileId) : Prop where
  fresh : ∀ which, fileId ∉ (s.box which).index.keys
  level : ∀ which, (s.box which).Level

/-- Nothing of the file: the table is as before, and so are the boxes, but for hops. -/
def Untouched (fileId : FileId) (s s' : PackedVirtualStorage FileId) : Prop :=
  s'.entries = s.entries ∧ (∀ which, fileId ∉ (s'.box which).index.keys) ∧
    ∃ hops, ∀ which, ((s.falls hops).box which).SameData (s'.box which)

/-- `_hold` has stopped before it has packed a byte or made an entry. -/
def StopsFirst (F : Faults) (result : Splitter.SplitResult) : Prop :=
  match result.content with
  | .fromFile _ => True
  | .bytes data => (data ≠ [] ∧ F.compress .content ≠ none) ∨ F.add .content = some .active ∨
      (data = [] ∧ F.add .content ≠ none)

end Operations

/-! ### Hops -/

variable {s : PackedVirtualStorage FileId}

theorem falls_cons (which : Piece) (hops : List Piece) (s : PackedVirtualStorage FileId) :
    s.falls (which :: hops) = (s.setBox which (s.box which).fall).falls hops := rfl

theorem box_setBox (s : PackedVirtualStorage FileId) (which other : Piece)
    (box : PackedFallingBox FileId) :
    (s.setBox which box).box other = if other = which then box else s.box other :=
  Function.update_apply ..

theorem entries_falls (hops : List Piece) (s : PackedVirtualStorage FileId) :
    (s.falls hops).entries = s.entries := by
  induction hops generalizing s with
  | nil => rfl
  | cons which hops ih => exact (ih _).trans rfl

theorem index_falls (hops : List Piece) (s : PackedVirtualStorage FileId) (which : Piece) :
    ((s.falls hops).box which).index = (s.box which).index := by
  induction hops generalizing s with
  | nil => rfl
  | cons hop hops ih =>
    rw [falls_cons, ih, box_setBox]
    split
    · rename_i heq
      rw [PackedFallingBox.index_fall, heq]
    · rfl

theorem level_falls (hops : List Piece) (hlevel : ∀ which, (s.box which).Level) (which : Piece) :
    ((s.falls hops).box which).Level ∧ ((s.falls hops).box which).room = (s.box which).room := by
  induction hops generalizing s with
  | nil => exact ⟨hlevel which, rfl⟩
  | cons hop hops ih =>
    have hstep : ∀ which, ((s.setBox hop (s.box hop).fall).box which).Level ∧
        ((s.setBox hop (s.box hop).fall).box which).room = (s.box which).room := by
      intro which
      rw [box_setBox]
      split
      · rename_i heq
        rw [heq]
        exact (hlevel hop).fall
      · exact ⟨hlevel which, rfl⟩
    rw [falls_cons]
    obtain ⟨hlast, hroom⟩ := ih fun which => (hstep which).1
    exact ⟨hlast, hroom.trans (hstep which).2⟩

/-! ### One piece -/

section Pieces

variable [DecidableEq FileId] {P : Primitives} {F : Faults} {fileId : FileId}
  {result : Splitter.SplitResult} {hops : Piece → List Piece} {s' : PackedVirtualStorage FileId}

theorem pack_eq_nil {data : Bytes} : P.pack data = [] ↔ data = [] := by
  rw [Primitives.pack]
  split
  · rename_i h
    exact iff_of_true rfl h
  · rename_i h
    exact iff_of_false (P.compress_ne_nil _ _) h

theorem compress_error {which : Piece} {piece : Splitter.FilePiece} {e : PyError}
    (h : compress P F which piece = .error e) :
    (∃ path, piece = .fromFile path) ∨
      ∃ raw, piece = .bytes raw ∧ raw ≠ [] ∧ F.compress which ≠ none := by
  cases piece with
  | fromFile path => exact Or.inl ⟨path, rfl⟩
  | bytes raw =>
    right
    rw [compress] at h
    split at h
    · cases h
    · rename_i hne
      refine ⟨raw, rfl, hne, fun hnone => ?_⟩
      rw [hnone] at h
      cases h

theorem compress_ok {which : Piece} {piece : Splitter.FilePiece} {data : Bytes}
    (h : compress P F which piece = .ok data) :
    ∃ raw, piece = .bytes raw ∧ (data = [] ↔ raw = []) ∧
      ¬ (raw ≠ [] ∧ F.compress which ≠ none) := by
  cases piece with
  | fromFile path => cases h
  | bytes raw =>
    refine ⟨raw, rfl, ?_⟩
    rw [compress] at h
    split at h
    · rename_i hnil
      cases h
      exact ⟨iff_of_true rfl hnil, fun hraw => hraw.1 hnil⟩
    · cases hnone : F.compress which with
      | some e =>
        rw [hnone] at h
        cases h
      | none =>
        rw [hnone] at h
        cases h
        exact ⟨pack_eq_nil, fun hraw => hraw.2 rfl⟩

/-- A piece is packed, or compressing it raises, or `add` does. -/
theorem holdPiece_cases (P : Primitives) (F : Faults) (fileId : FileId) (which : Piece)
    (piece : Splitter.FilePiece) (hops : List Piece) (s : PackedVirtualStorage FileId) :
    (∃ e, compress P F which piece = .error e ∧
      holdPiece P F fileId which piece hops s = (s, .error e)) ∨
    (∃ data fault, compress P F which piece = .ok data ∧ F.add which = some fault ∧
      holdPiece P F fileId which piece hops s = ((s.falls hops).setBox which
        (((s.falls hops).box which).addFailing data fault), .error .memoryError)) ∨
    (∃ data, compress P F which piece = .ok data ∧ F.add which = none ∧
      holdPiece P F fileId which piece hops s = ((s.falls hops).setBox which
        (((s.falls hops).box which).add fileId data), .ok ())) := by
  rw [holdPiece]
  cases compress P F which piece with
  | error e => exact Or.inl ⟨e, rfl, rfl⟩
  | ok data =>
    right
    dsimp only
    cases F.add which with
    | none => exact Or.inr ⟨data, rfl, rfl, rfl⟩
    | some fault => exact Or.inl ⟨data, fault, rfl, rfl, rfl⟩

/-- The other boxes keep their index. -/
theorem index_holdPiece (P : Primitives) (F : Faults) (fileId : FileId) {which other : Piece}
    (hother : other ≠ which) (piece : Splitter.FilePiece) (hops : List Piece)
    (s : PackedVirtualStorage FileId) :
    ((holdPiece P F fileId which piece hops s).1.box other).index = (s.box other).index := by
  rcases holdPiece_cases P F fileId which piece hops s with
    ⟨e, -, h⟩ | ⟨data, fault, -, -, h⟩ | ⟨data, -, -, h⟩
  · rw [h]
  · rw [h, box_setBox, if_neg hother, index_falls]
  · rw [h, box_setBox, if_neg hother, index_falls]

theorem index_holdPieces {other : Piece} {rest : List Piece} (hother : other ∉ rest)
    (s : PackedVirtualStorage FileId) (P : Primitives) (F : Faults) (fileId : FileId)
    (result : Splitter.SplitResult) (hops : Piece → List Piece) :
    ((holdPieces P F fileId result hops rest s).1.box other).index = (s.box other).index := by
  induction rest generalizing s with
  | nil => rfl
  | cons which rest ih =>
    rw [List.mem_cons, not_or] at hother
    have hfirst := index_holdPiece P F fileId hother.1 (result.piece which) (hops which) s
    rw [holdPieces]
    generalize holdPiece P F fileId which (result.piece which) (hops which) s = out at hfirst ⊢
    obtain ⟨s₁, outcome⟩ := out
    cases outcome with
    | error e => exact hfirst
    | ok u => exact (ih hother.2 s₁).trans hfirst

theorem mem_index_add (box : PackedFallingBox FileId) (name : FileId) (data : Bytes) :
    name ∈ (box.add name data).index.keys := by
  refine Dict.mem_keys.mpr ⟨(box.activeBox.length, data.length), ?_⟩
  rw [PackedFallingBox.add]
  cases box.active with
  | a => exact (Dict.get?_set ..).trans (if_pos rfl)
  | b => exact (Dict.get?_set ..).trans (if_pos rfl)

/-! ### Where it stops -/

omit [DecidableEq FileId] in
/-- A save that fails in `add` of the first piece. -/
theorem untouched_addFailing (hready : s.Ready fileId) {data : Bytes} {fault : AddFault}
    {first : List Piece} :
    Untouched fileId s ((s.falls first).setBox .content
        (((s.falls first).box .content).addFailing data fault)) ↔
      fault = .active ∨ data = [] := by
  constructor
  · rintro ⟨-, -, other, hsame⟩
    by_contra hnot
    rw [not_or] at hnot
    obtain ⟨hA, hB, -, -⟩ := hsame .content
    rw [box_setBox, if_pos rfl] at hA hB
    obtain ⟨hlevel, hroom⟩ := level_falls first hready.level .content
    have hroom' := (level_falls other hready.level .content).2
    have hgrown := PackedFallingBox.room_addFailing hlevel data hnot.1
    have := List.length_pos_of_ne_nil hnot.2
    -- hops make no room, and what has been added needs some
    rw [hroom, ← hroom', PackedFallingBox.room, PackedFallingBox.room, hA, hB] at hgrown
    omega
  · intro h
    refine ⟨entries_falls first s, fun which => ?_, first, fun which => ?_⟩
    · rw [box_setBox]
      split
      · rw [PackedFallingBox.index_addFailing, index_falls]
        exact hready.fresh .content
      · rw [index_falls]
        exact hready.fresh which
    · rw [box_setBox]
      split
      · rename_i heq
        rw [heq]
        exact PackedFallingBox.sameData_addFailing _ h
      · exact ⟨rfl, rfl, rfl, rfl⟩

theorem hold_error {name : PyStr} {e : PyError}
    (h : hold P F result name fileId hops s = (s', .error e)) :
    holdPieces P F fileId result hops [.content, .structural, .metadata] s = (s', .error e) := by
  rw [hold] at h
  split at h
  · rename_i s₁ e₁ heq
    rw [heq, h]
  · cases h

/-- **Failed saves.**  When `_hold` raises, whatever the reason and whatever hops the boxes make
meanwhile, buffers, indexes and table are as before, with nothing of the file, exactly when it
has stopped before packing anything: the content is a marker, or compressing it raises, or there
is no memory for the first buffer, or the content is empty and its `add` raises. -/
theorem hold_untouched_iff (hready : s.Ready fileId) {name : PyStr} {e : PyError}
    (hraise : hold P F result name fileId hops s = (s', .error e)) :
    Untouched fileId s s' ↔ StopsFirst F result := by
  have hpieces := hold_error hraise
  rw [holdPieces] at hpieces
  rcases holdPiece_cases P F fileId .content (result.piece .content) (hops .content) s with
    ⟨e₁, hcompress, hpiece⟩ | ⟨data, fault, hcompress, hfault, hpiece⟩ |
    ⟨data, hcompress, hfault, hpiece⟩
  · -- compressing the content raises
    rw [hpiece] at hpieces
    cases hpieces
    refine iff_of_true ⟨rfl, hready.fresh, [], fun which => ⟨rfl, rfl, rfl, rfl⟩⟩ ?_
    rw [StopsFirst]
    rcases compress_error hcompress with ⟨path, hpath⟩ | ⟨raw, hraw, hraises⟩
    · have hcontent : result.content = .fromFile path := hpath
      rw [hcontent]
      trivial
    · have hcontent : result.content = .bytes raw := hraw
      rw [hcontent]
      exact Or.inl hraises
  · -- packing it does
    rw [hpiece] at hpieces
    cases hpieces
    obtain ⟨raw, hraw, hnil, hcompresses⟩ := compress_ok hcompress
    have hcontent : result.content = .bytes raw := hraw
    rw [untouched_addFailing hready, StopsFirst, hcontent, hfault, hnil]
    simp [hcompresses]
  · -- the content has been packed, so there is an entry for the file
    rw [hpiece] at hpieces
    obtain ⟨raw, hraw, -, hcompresses⟩ := compress_ok hcompress
    have hcontent : result.content = .bytes raw := hraw
    refine iff_of_false ?_ ?_
    · rintro ⟨-, hgone, -⟩
      have hother : Piece.content ∉ [Piece.structural, Piece.metadata] := by decide
      have hindex := index_holdPieces hother ((s.falls (hops .content)).setBox .content
        (((s.falls (hops .content)).box .content).add fileId data)) P F fileId result hops
      dsimp only at hpieces
      rw [hpieces, box_setBox, if_pos rfl] at hindex
      refine hgone .content ?_
      rw [hindex]
      exact mem_index_add _ _ _
    · rw [StopsFirst, hcontent, hfault]
      simp [hcompresses]

omit [DecidableEq FileId] in
theorem ready_new (fileId : FileId) : (new : PackedVirtualStorage FileId).Ready fileId where
  fresh _ := List.not_mem_nil
  level _ := PackedFallingBox.level_of_even rfl

/-- Boxes that have been used in any way, and not run out of memory, have even buffers. -/
theorem ready_of_runs
    (hruns : ∀ which, ∃ events, Run PackedFallingBox.Step .new events (s.box which))
    (hfresh : ∀ which, fileId ∉ (s.box which).index.keys) : s.Ready fileId where
  fresh := hfresh
  level which := by
    obtain ⟨events, hrun⟩ := hruns which
    obtain ⟨pieces, hpacked, -⟩ := PackedFallingBox.Packed.run hrun
    exact PackedFallingBox.level_of_even hpacked.length

end Pieces

/-- A file has been saved, another one has run out of memory half way through the first box, and
then the content of a text file is a marker: nothing is packed. -/
theorem hold_untouched_text :
    ∃ s s' : PackedVirtualStorage ℕ,
      (hold Primitives.sample { Faults.none with add := fun _ => some .other }
        ⟨.bytes [9], .bytes [46], [1], .content⟩ (pyStr "b.txt") 7 (fun _ => [])
        (hold Primitives.sample Faults.none ⟨.bytes [5, 6], .bytes [46], [1], .content⟩
          (pyStr "c.txt") 6 (fun _ => []) new).1) = (s, .error .memoryError) ∧
      (s.box .content).boxA.length ≠ (s.box .content).boxB.length ∧ s.entries.keys = [6] ∧
      hold Primitives.sample Faults.none ⟨.fromFile (pyStr "a.txt"), .bytes [46], [1], .content⟩
        (pyStr "a.txt") 8 (fun _ => [.content]) s = (s', .error .typeError) ∧
      Untouched 8 s s' := by
  let s := (hold Primitives.sample { Faults.none with add := fun _ => some .other }
    ⟨.bytes [9], .bytes [46], [1], .content⟩ (pyStr "b.txt") 7 (fun _ => [])
    (hold Primitives.sample Faults.none ⟨.bytes [5, 6], .bytes [46], [1], .content⟩
      (pyStr "c.txt") 6 (fun _ => []) (new : PackedVirtualStorage ℕ)).1).1
  have hready : s.Ready 8 := by
    refine ⟨fun which => ?_, fun which => ?_⟩
    · cases which <;> decide
    · cases which with
      | content => exact Nat.le_of_ble_eq_true rfl
      | structural => exact PackedFallingBox.level_of_even rfl
      | metadata => exact PackedFallingBox.level_of_even rfl
  have hraise : hold Primitives.sample Faults.none
      ⟨.fromFile (pyStr "a.txt"), .bytes [46], [1], .content⟩ (pyStr "a.txt") 8
      (fun _ => [.content]) s = (s, .error .typeError) := rfl
  exact ⟨s, s, rfl, by decide, rfl, hraise, (hold_untouched_iff hready hraise).mpr trivial⟩

/-- A PDF that has a text: the text is packed, the marker for the rest raises, and the text stays
in the box under an id that the table does not have. -/
theorem hold_strands :
    let L : Splitter.Libraries :=
      { Splitter.Libraries.sample with pdfOfPath := fun _ => some [some (pyStr "text")] }
    let disk : Splitter.Disk := fun path => if path = pyStr "a.pdf" then some [37, 80] else none
    (∃ result s', Splitter.splitFile L disk (pyStr "a.pdf") = .ok result ∧
      hold Primitives.sample Faults.none result (pyStr "a.pdf") 7 (fun _ => [])
        (new : PackedVirtualStorage ℕ) = (s', .error .typeError) ∧
      (s'.box .content).boxA = Primitives.sample.pack [116, 101, 120, 116] ∧
      7 ∈ (s'.box .content).index.keys ∧ s'.entries = (new : PackedVirtualStorage ℕ).entries) ∧
    ¬ ∀ (P : Primitives) (F : Faults) (result : Splitter.SplitResult) (name : PyStr) (fileId : ℕ)
      (hops : Piece → List Piece) (s s' : PackedVirtualStorage ℕ) (e : PyError),
      s.Ready fileId → hold P F result name fileId hops s = (s', .error e) →
      Untouched fileId s s' := by
  intro L disk
  have hsplit : ∃ metadata, Splitter.splitFile L disk (pyStr "a.pdf")
      = .ok ⟨.bytes [116, 101, 120, 116], .fromFile (pyStr "a.pdf"), metadata, .structural⟩ := by
    have hencode : (Splitter.encode (Splitter.metadataText (Splitter.basename (pyStr "a.pdf"))
        (L.lower (Splitter.splitext (pyStr "a.pdf"))) [(37 : UInt8), 80].length
        (L.hash.hexdigest (L.hash.of [37, 80])))).toOption.isSome = true := by decide +kernel
    have hmetadata : Splitter.metadataBytesForPath L disk (pyStr "a.pdf") = _ :=
      Splitter.metadataBytesForPath_eq rfl
    rw [Splitter.splitFile, hmetadata]
    cases hm : Splitter.encode (Splitter.metadataText (Splitter.basename (pyStr "a.pdf"))
        (L.lower (Splitter.splitext (pyStr "a.pdf"))) [(37 : UInt8), 80].length
        (L.hash.hexdigest (L.hash.of [37, 80]))) with
    | error e =>
      rw [hm] at hencode
      cases hencode
    | ok metadata => exact ⟨metadata, rfl⟩
  obtain ⟨metadata, hsplit⟩ := hsplit
  have hhold : ∃ s', hold Primitives.sample Faults.none
      ⟨.bytes [116, 101, 120, 116], .fromFile (pyStr "a.pdf"), metadata, .structural⟩
      (pyStr "a.pdf") 7 (fun _ => []) (new : PackedVirtualStorage ℕ) = (s', .error .typeError) ∧
      (s'.box .content).boxA = Primitives.sample.pack [116, 101, 120, 116] ∧
      7 ∈ (s'.box .content).index.keys ∧ s'.entries = (new : PackedVirtualStorage ℕ).entries :=
    ⟨_, rfl, rfl, List.mem_singleton_self 7, rfl⟩
  obtain ⟨s', hraise, hbytes, hentry, htable⟩ := hhold
  refine ⟨⟨_, s', hsplit, hraise, hbytes, hentry, htable⟩, fun hall => ?_⟩
  obtain ⟨-, hgone, -⟩ := hall _ _ _ _ _ _ _ _ _ (ready_new 7) hraise
  exact hgone .content hentry

end PackedVirtualStorage
