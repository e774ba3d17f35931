/-
`system.py`: the storage, with any number of calls at once.

Each piece falls in a box of its own, and whoever has looked a file up keeps its boxes in hand.
`forget` takes the file out of the table and then collapses its boxes; a collapsed box still
answers, and what it gives is empty.

* `serves_stored`: after any run, a file that has been saved and not forgotten is given as it was
  saved, at its size, and any other id is refused.
* `read_cases`: a retrieval that has looked a file up before other steps is given the file; or
  nothing, and no error, when the file is forgotten meanwhile, and certainly so once the call of
  `forget` is through.  (The thread of a box ends within the second that `collapse` waits for it.)
-/
import Mathlib
import VStorage.FileSaves
import VStorage.SecureRetrieval

namespace PlainFiles

open KeyedStore (Alike Refines stored)
open SecureFiles (Call Event File Origin entry_box boxes_entry getElem?_concat_cases)
open Splitter (Disk FilePiece)

/-! ### The storage -/

/-- A box, with what was compressed into it and the id of the call that made it; nothing reads
those. -/
structure Falling (FileId : Type*) where
  box : FallingBox
  data : Bytes
  owner : FileId

/-- `VirtualStorage`, with the calls of `_hold` by the ids that they draw; `forgetting` are the
boxes that a `forget` has taken out of the table and not collapsed yet. -/
structure State (FileId : Type*) where
  boxes : List (Falling FileId)
  calls : FileId → Option Call
  held : Dict FileId SecureFiles.Held
  forgetting : List ℕ

variable {FileId : Type*}

/-- `__init__`. -/
def start : State FileId := ⟨[], fun _ => none, .empty, []⟩

def State.setBox (s : State FileId) (b : ℕ) (f : Falling FileId) : State FileId :=
  { s with boxes := s.boxes.set b f }

def State.setCall [DecidableEq FileId] (s : State FileId) (fileId : FileId) (c : Call) :
    State FileId :=
  { s with calls := Function.update s.calls fileId (some c) }

/-- The file that an entry of the table stands for. -/
def State.file (s : State FileId) (held : SecureFiles.Held) : File where
  piece p := (s.boxes.map Falling.data).getD (held.box p) []
  reconstructFrom := held.reconstructFrom
  originalSize := held.originalSize
  name := held.name

section

variable [DecidableEq FileId] (P : Primitives) (L : Splitter.Libraries)

/-- One step of anyone.  A piece that is a marker is not compressed, and the call gets no
further; the disk is as it is when a path is split. -/
inductive Step : State FileId → Event FileId → State FileId → Prop
  | call {s : State FileId} {fileId : FileId} {origin : Origin} {disk : Disk}
      {result : Splitter.SplitResult} :
      s.calls fileId = none → origin.split L disk = .ok result →
      Step s (.called fileId origin) (s.setCall fileId ⟨result, origin.name, [], .making⟩)
  | make {s : State FileId} {fileId : FileId} {c : Call} {raw packed : Bytes} :
      s.calls fileId = some c → c.phase = .making → c.next = some (.bytes raw) →
      compressPiece P (.bytes raw) = .ok packed →
      Step s .quiet ({ s with boxes := s.boxes ++ [Falling.mk (.new packed) raw fileId] }.setCall
        fileId { c with boxes := c.boxes ++ [s.boxes.length] })
  | record {s : State FileId} {fileId : FileId} {c : Call} {original : Bytes} :
      s.calls fileId = some c → c.phase = .making → c.boxes.length = 3 →
      c.original = .bytes original →
      Step s (.saved fileId (s.file (c.entry original.length)))
        ({ s with held := s.held.set fileId (c.entry original.length) }.setCall fileId
          { c with phase := .held original.length })
  | raises {s : State FileId} {fileId : FileId} {c : Call} :
      s.calls fileId = some c → c.phase = .making →
      Step s .quiet (s.setCall fileId { c with phase := .raised })
  | forget {s : State FileId} {fileId : FileId} {c : Call} {held : SecureFiles.Held} :
      s.held.get? fileId = some held → s.calls fileId = some c →
      Step s (.forgot fileId)
        ({ s with
            held := s.held.erase fileId
            forgetting := s.forgetting ++ held.boxes }.setCall fileId
              { c with phase := .forgotten })
  | collapse {s : State FileId} {b : ℕ} {f : Falling FileId} : b ∈ s.forgetting →
      s.boxes[b]? = some f →
      Step s .quiet ({ s with forgetting := s.forgetting.erase b }.setBox b
        { f with box := f.box.collapse })
  | fall {s : State FileId} {b : ℕ} {f : Falling FileId} : s.boxes[b]? = some f →
      Step s .quiet (s.setBox b { f with box := f.box.fall })

/-! ### Ways out -/

/-- The box at a position. -/
def State.boxAt (s : State FileId) (b : ℕ) : Except PyError FallingBox :=
  (pyIndex s.boxes b).map Falling.box

/-- What a retrieval gives that has looked the file up. -/
def State.read (s : State FileId) (held : SecureFiles.Held) (which : Option Piece) :
    Except PyError Bytes := do
  let box ← s.boxAt (held.box (which.getD held.reconstructFrom))
  P.unpack box.snapshot

/-- `retrieve`. -/
def State.retrieve (s : State FileId) (fileId : FileId) (which : Option Piece) :
    Except PyError Bytes :=
  match s.held.get? fileId with
  | none => .error .keyError
  | some held => s.read P held which

/-- `held_size_bytes`. -/
def State.heldSizeBytes (s : State FileId) (fileId : FileId) : Except PyError ℕ :=
  match s.held.get? fileId with
  | none => .error .keyError
  | some held => do
    let content ← s.boxAt (held.box .content)
    let structural ← s.boxAt (held.box .structural)
    let metadata ← s.boxAt (held.box .metadata)
    return content.snapshot.length + structural.snapshot.length + metadata.snapshot.length

/-- `original_size_bytes`. -/
def State.originalSizeBytes (s : State FileId) (fileId : FileId) : Except PyError ℕ :=
  match s.held.get? fileId with
  | none => .error .keyError
  | some held => .ok held.originalSize

/-- `list_ids`. -/
def State.listIds (s : State FileId) : List FileId := s.held.keys

end

/-! ### The invariant -/

/-- The file has been forgotten. -/
def State.Gone (s : State FileId) (fileId : FileId) : Prop :=
  ∃ c, s.calls fileId = some c ∧ c.phase = .forgotten

/-- The box holds what was put into it, and is still to be collapsed if its file is gone; or it
is empty, and its file is gone. -/
inductive Lives (P : Primitives) (s : State FileId) (b : ℕ) (f : Falling FileId) : Prop
  | full : f.box.Holds (P.pack f.data) → (s.Gone f.owner → b ∈ s.forgetting) → Lives P s b f
  | empty : f.box.Holds [] → s.Gone f.owner → Lives P s b f

variable [DecidableEq FileId]

/-- `files` is what the table holds, and each box has the call that made it. -/
structure Inv (P : Primitives) (files : Dict FileId File) (s : State FileId) : Prop where
  lives : ∀ {b f}, s.boxes[b]? = some f → Lives P s b f
  owned : ∀ {b f}, s.boxes[b]? = some f → ∃ c, s.calls f.owner = some c ∧ b ∈ c.boxes
  made : ∀ {fileId c b}, s.calls fileId = some c → b ∈ c.boxes →
    ∃ f, s.boxes[b]? = some f ∧ f.owner = fileId
  entry : ∀ {fileId held}, s.held.get? fileId = some held → ∃ c size,
    s.calls fileId = some c ∧ c.phase = .held size ∧ c.boxes.length = 3 ∧ held = c.entry size
  forgetting : ∀ {b}, b ∈ s.forgetting → ∃ f, s.boxes[b]? = some f ∧ s.Gone f.owner
  files : Alike (fun _ file held => file = s.file held) files s.held

variable {P : Primitives} {L : Splitter.Libraries} {files : Dict FileId File} {s t : State FileId}

theorem inv_start (P : Primitives) : Inv P .empty (start : State FileId) where
  lives h := nomatch h
  owned h := nomatch h
  made h _ := nomatch h
  entry h := nomatch h
  forgetting h := nomatch h
  files := Alike.empty

/-! ### One step -/

section Boxes

omit [DecidableEq FileId]

variable {b i : ℕ} {f f' g : Falling FileId}

theorem getElem?_setBox (hf : s.boxes[b]? = some f) (hg : (s.setBox b f').boxes[i]? = some g) :
    (i = b ∧ g = f') ∨ (i ≠ b ∧ s.boxes[i]? = some g) := by
  have hlt := (List.getElem?_eq_some_iff.mp hf).1
  change (s.boxes.set b f')[i]? = some g at hg
  by_cases hi : i = b
  · subst hi
    rw [List.getElem?_set_self hlt] at hg
    exact Or.inl ⟨rfl, (Option.some.inj hg).symm⟩
  · rw [List.getElem?_set_ne (Ne.symm hi)] at hg
    exact Or.inr ⟨hi, hg⟩

/-- What was put into the boxes does not change when they do. -/
theorem data_setBox (hf : s.boxes[b]? = some f) (hdata : f'.data = f.data) :
    (s.setBox b f').boxes.map Falling.data = s.boxes.map Falling.data := by
  refine List.ext_getElem? fun i => ?_
  show ((s.boxes.set b f').map Falling.data)[i]? = _
  rw [List.getElem?_map, List.getElem?_map]
  by_cases hi : i = b
  · subst hi
    rw [List.getElem?_set_self (List.getElem?_eq_some_iff.mp hf).1, hf]
    exact congrArg some hdata
  · rw [List.getElem?_set_ne (Ne.symm hi)]

theorem file_congr (h : t.boxes.map Falling.data = s.boxes.map Falling.data)
    (held : SecureFiles.Held) : t.file held = s.file held := by
  rw [State.file, State.file, h]

end Boxes

theorem Inv.lt (h : Inv P files s) {fileId : FileId} {c : Call} {b : ℕ}
    (hc : s.calls fileId = some c) (hb : b ∈ c.boxes) : b < s.boxes.length := by
  obtain ⟨f, hf, -⟩ := h.made hc hb
  exact (List.getElem?_eq_some_iff.mp hf).1

/-- A box moves, and is what it should be. -/
theorem Inv.setBox (h : Inv P files s) {b : ℕ} {f : Falling FileId} {box : FallingBox}
    (hf : s.boxes[b]? = some f) (hlives : Lives P s b { f with box := box }) :
    Inv P files (s.setBox b { f with box := box }) := by
  have hsame : ∀ {i : ℕ} {g : Falling FileId}, s.boxes[i]? = some g →
      ∃ g' : Falling FileId, (s.setBox b { f with box := box }).boxes[i]? = some g' ∧
        g'.owner = g.owner := by
    intro i g hg
    show ∃ g' : Falling FileId, (s.boxes.set b _)[i]? = some g' ∧ _
    by_cases hi : i = b
    · subst hi
      obtain rfl := Option.some.inj (hf.symm.trans hg)
      exact ⟨_, List.getElem?_set_self (List.getElem?_eq_some_iff.mp hf).1, rfl⟩
    · exact ⟨g, (List.getElem?_set_ne (Ne.symm hi)).trans hg, rfl⟩
  refine ⟨fun {i g} hg => ?_, fun {i g} hg => ?_, fun hc hi => ?_, h.entry, fun hi => ?_, ?_⟩
  · rcases getElem?_setBox hf hg with ⟨rfl, rfl⟩ | ⟨-, hg⟩
    · cases hlives with
      | full hold hgone => exact .full hold hgone
      | empty hold hgone => exact .empty hold hgone
    · cases h.lives hg with
      | full hold hgone => exact .full hold hgone
      | empty hold hgone => exact .empty hold hgone
  · rcases getElem?_setBox hf hg with ⟨rfl, rfl⟩ | ⟨-, hg⟩
    · obtain ⟨c, hc, hi⟩ := h.owned hf
      exact ⟨c, hc, hi⟩
    · exact h.owned hg
  · obtain ⟨g, hg, rfl⟩ := h.made hc hi
    exact hsame hg
  · obtain ⟨g, hg, hgone⟩ := h.forgetting hi
    obtain ⟨g', hg', hown⟩ := hsame hg
    exact ⟨g', hg', by rwa [hown]⟩
  · have hdata : (s.setBox b { f with box := box }).boxes.map Falling.data
        = s.boxes.map Falling.data := data_setBox hf rfl
    exact h.files.mono fun hfile => hfile.trans (file_congr hdata _).symm

theorem calls_self {fileId : FileId} {c : Call} : (s.setCall fileId c).calls fileId = some c :=
  Function.update_self ..

theorem calls_of_ne {fileId i : FileId} {c : Call} (hi : i ≠ fileId) :
    (s.setCall fileId c).calls i = s.calls i := Function.update_of_ne hi ..

theorem gone_setCall {fileId : FileId} {c : Call} (hno : ¬ s.Gone fileId)
    (hphase : c.phase ≠ .forgotten) (i : FileId) : (s.setCall fileId c).Gone i ↔ s.Gone i := by
  by_cases hi : i = fileId
  · subst hi
    refine iff_of_false ?_ hno
    rintro ⟨c', hc', hgone⟩
    obtain rfl := Option.some.inj (calls_self.symm.trans hc')
    exact hphase hgone
  · constructor
    · rintro ⟨c', hc', hgone⟩
      exact ⟨c', (calls_of_ne hi).symm.trans hc', hgone⟩
    · rintro ⟨c', hc', hgone⟩
      exact ⟨c', (calls_of_ne hi).trans hc', hgone⟩

omit [DecidableEq FileId] in
theorem Lives.congr {b : ℕ} {f : Falling FileId} (h : Lives P s b f)
    (hgone : t.Gone f.owner ↔ s.Gone f.owner) (hforgetting : b ∈ s.forgetting → b ∈ t.forgetting) :
    Lives P t b f := by
  cases h with
  | full hold hf => exact .full hold fun ht => hforgetting (hf (hgone.mp ht))
  | empty hold hf => exact .empty hold (hgone.mpr hf)

/-- A call begins, or goes on with the same boxes; its file is not in the table. -/
theorem Inv.setCall (h : Inv P files s) {fileId : FileId} {c : Call}
    (hboxes : ∀ b, b ∈ c.boxes ↔ ∃ c', s.calls fileId = some c' ∧ b ∈ c'.boxes)
    (hno : ¬ s.Gone fileId) (hphase : c.phase ≠ .forgotten)
    (hheld : s.held.get? fileId = none) : Inv P files (s.setCall fileId c) := by
  have hgone := gone_setCall hno hphase
  refine ⟨fun hf => (h.lives hf).congr (hgone _) id, fun {b f} hf => ?_, fun {i c' b} hc' hb => ?_,
    fun {i held} hi => ?_, fun hb => ?_, h.files⟩
  · obtain ⟨c', hc', hb⟩ := h.owned hf
    by_cases hi : f.owner = fileId
    · refine ⟨c, by rw [hi]; exact calls_self, (hboxes b).mpr ⟨c', hi ▸ hc', hb⟩⟩
    · exact ⟨c', (calls_of_ne hi).trans hc', hb⟩
  · by_cases hi : i = fileId
    · subst hi
      obtain rfl := Option.some.inj (calls_self.symm.trans hc')
      obtain ⟨c'', hc'', hb⟩ := (hboxes b).mp hb
      exact h.made hc'' hb
    · exact h.made ((calls_of_ne hi).symm.trans hc') hb
  · have hne : i ≠ fileId := by
      rintro rfl
      exact nomatch hheld.symm.trans hi
    obtain ⟨c', size, hc', hrest⟩ := h.entry hi
    exact ⟨c', size, (calls_of_ne hne).trans hc', hrest⟩
  · obtain ⟨f, hf, hf'⟩ := h.forgetting hb
    exact ⟨f, hf, (hgone _).mpr hf'⟩

/-- A file of which all boxes have been made is entered. -/
theorem Inv.enter (h : Inv P files s) {fileId : FileId} {c : Call} {size : ℕ}
    (hc : s.calls fileId = some c) (hphase : c.phase = .held size) (hlen : c.boxes.length = 3) :
    Inv P (files.set fileId (s.file (c.entry size)))
      { s with held := s.held.set fileId (c.entry size) } where
  lives hf := (h.lives hf).congr Iff.rfl id
  owned := h.owned
  made := h.made
  entry {i held} hi := by
    rw [Dict.get?_set] at hi
    split at hi
    · rename_i heq
      obtain rfl := Option.some.inj hi
      exact ⟨c, size, heq ▸ hc, hphase, hlen, rfl⟩
    · exact h.entry hi
  forgetting := h.forgetting
  files := h.files.set rfl

omit [DecidableEq FileId] in
theorem not_gone {fileId : FileId} {c : Call} (hc : s.calls fileId = some c)
    (hphase : c.phase ≠ .forgotten) : ¬ s.Gone fileId := by
  rintro ⟨c', hc', hgone⟩
  obtain rfl := Option.some.inj (hc.symm.trans hc')
  exact hphase hgone

/-- A call makes a box. -/
theorem Inv.make (h : Inv P files s) {fileId : FileId} {c : Call} {raw : Bytes}
    (hc : s.calls fileId = some c) (hphase : c.phase = .making) :
    Inv P files
      ({ s with boxes := s.boxes ++ [Falling.mk (.new (P.pack raw)) raw fileId] }.setCall fileId
        { c with boxes := c.boxes ++ [s.boxes.length] }) := by
  have hmaking : c.phase ≠ .forgotten := by
    rw [hphase]
    exact nofun
  have hno : ¬ s.Gone fileId := not_gone hc hmaking
  have hgone : ∀ i, (({ s with boxes := s.boxes ++ [Falling.mk (.new (P.pack raw)) raw fileId] } :
      State FileId).setCall fileId { c with boxes := c.boxes ++ [s.boxes.length] }).Gone i ↔
        s.Gone i := gone_setCall hno hmaking
  have hold : ∀ {b : ℕ} {f : Falling FileId}, s.boxes[b]? = some f →
      (s.boxes ++ [Falling.mk (.new (P.pack raw)) raw fileId])[b]? = some f := fun hf =>
    (List.getElem?_append_left (List.getElem?_eq_some_iff.mp hf).1).trans hf
  refine ⟨fun {b f} hf => ?_, fun {b f} hf => ?_, fun {i c' b} hc' hb => ?_, fun {i held} hi => ?_,
    fun {b} hb => ?_, ?_⟩
  · rcases getElem?_concat_cases hf with hf | ⟨-, rfl⟩
    · exact (h.lives hf).congr (hgone _) id
    · exact .full (FallingBox.holds_new _) fun hf => absurd ((hgone _).mp hf) hno
  · rcases getElem?_concat_cases hf with hf | ⟨rfl, rfl⟩
    · obtain ⟨c', hc', hb⟩ := h.owned hf
      by_cases hi : f.owner = fileId
      · rw [hi] at hc' ⊢
        obtain rfl := Option.some.inj (hc.symm.trans hc')
        exact ⟨_, calls_self, List.mem_append_left _ hb⟩
      · exact ⟨c', (calls_of_ne hi).trans hc', hb⟩
    · exact ⟨_, calls_self, List.mem_append_right _ (List.mem_singleton_self _)⟩
  · by_cases hi : i = fileId
    · subst hi
      obtain rfl := Option.some.inj (calls_self.symm.trans hc')
      rcases List.mem_append.mp hb with hb | hb
      · obtain ⟨f, hf, hown⟩ := h.made hc hb
        exact ⟨f, hold hf, hown⟩
      · obtain rfl := List.mem_singleton.mp hb
        exact ⟨_, List.getElem?_concat_length .., rfl⟩
    · obtain ⟨f, hf, hown⟩ := h.made ((calls_of_ne hi).symm.trans hc') hb
      exact ⟨f, hold hf, hown⟩
  · obtain ⟨c', size, hc', hphase', hrest⟩ := h.entry hi
    have hne : i ≠ fileId := by
      rintro rfl
      obtain rfl := Option.some.inj (hc.symm.trans hc')
      exact nomatch hphase.symm.trans hphase'
    exact ⟨c', size, (calls_of_ne hne).trans hc', hphase', hrest⟩
  · obtain ⟨f, hf, hf'⟩ := h.forgetting hb
    exact ⟨f, hold hf, (hgone _).mpr hf'⟩
  · -- the boxes of the files in the table are not the new one
    refine ⟨h.files.keys, fun {i file held} hfile hheld => ?_⟩
    rw [h.files.related hfile hheld, State.file, State.file]
    congr 1
    funext p
    obtain ⟨c', size, hc', -, hlen, rfl⟩ := h.entry hheld
    have hlt := h.lt hc' (List.mem_of_getElem? (entry_box hlen size p))
    show _ = ((s.boxes ++ [_]).map Falling.data).getD _ []
    rw [List.map_append, List.getD_append _ _ _ _ (by rwa [List.length_map])]

/-- A file is taken out of the table, and its boxes are to be collapsed. -/
theorem Inv.forget (h : Inv P files s) {fileId : FileId} {c : Call} {held : SecureFiles.Held}
    (hheld : s.held.get? fileId = some held) (hc : s.calls fileId = some c) :
    Inv P (files.erase fileId)
      ({ s with
          held := s.held.erase fileId
          forgetting := s.forgetting ++ held.boxes }.setCall fileId
            { c with phase := .forgotten }) := by
  obtain ⟨c', size, hc', hphase, hlen, rfl⟩ := h.entry hheld
  obtain rfl := Option.some.inj (hc.symm.trans hc')
  rw [boxes_entry hlen]
  have hgone : ∀ i, (({ s with
      held := s.held.erase fileId
      forgetting := s.forgetting ++ c.boxes } : State FileId).setCall fileId
        { c with phase := .forgotten }).Gone i ↔ i = fileId ∨ s.Gone i := by
    intro i
    by_cases hi : i = fileId
    · subst hi
      exact iff_of_true ⟨_, calls_self, rfl⟩ (Or.inl rfl)
    · rw [or_iff_right hi]
      constructor
      · rintro ⟨c', hc', hrest⟩
        exact ⟨c', (calls_of_ne hi).symm.trans hc', hrest⟩
      · rintro ⟨c', hc', hrest⟩
        exact ⟨c', (calls_of_ne hi).trans hc', hrest⟩
  refine ⟨fun {b f} hf => ?_, fun {b f} hf => ?_, fun {i c' b} hc' hb => ?_, fun {i held} hi => ?_,
    fun {b} hb => ?_, h.files.erase fileId⟩
  · cases h.lives hf with
    | full hold hrest =>
      refine .full hold fun hf' => ?_
      rcases (hgone _).mp hf' with hown | hf'
      · obtain ⟨c', hc', hb⟩ := h.owned hf
        rw [hown] at hc'
        obtain rfl := Option.some.inj (hc.symm.trans hc')
        exact List.mem_append_right _ hb
      · exact List.mem_append_left _ (hrest hf')
    | empty hold hrest => exact .empty hold ((hgone _).mpr (Or.inr hrest))
  · obtain ⟨c', hc', hb⟩ := h.owned hf
    by_cases hi : f.owner = fileId
    · rw [hi] at hc' ⊢
      obtain rfl := Option.some.inj (hc.symm.trans hc')
      exact ⟨_, calls_self, hb⟩
    · exact ⟨c', (calls_of_ne hi).trans hc', hb⟩
  · by_cases hi : i = fileId
    · subst hi
      obtain rfl := Option.some.inj (calls_self.symm.trans hc')
      exact h.made hc hb
    · exact h.made ((calls_of_ne hi).symm.trans hc') hb
  · change (s.held.erase fileId).get? i = some held at hi
    rw [Dict.get?_erase] at hi
    by_cases hne : i = fileId
    · rw [if_pos hne] at hi
      cases hi
    · rw [if_neg hne] at hi
      obtain ⟨c', size, hc', hrest⟩ := h.entry hi
      exact ⟨c', size, (calls_of_ne hne).trans hc', hrest⟩
  · rcases List.mem_append.mp hb with hb | hb
    · obtain ⟨f, hf, hf'⟩ := h.forgetting hb
      exact ⟨f, hf, (hgone _).mpr (Or.inr hf')⟩
    · obtain ⟨f, hf, hown⟩ := h.made hc hb
      exact ⟨f, hf, (hgone _).mpr (Or.inl hown)⟩

/-- The file of a call that is still making is not in the table. -/
theorem Inv.get?_eq_none (h : Inv P files s) {fileId : FileId}
    (hc : ∀ c size, s.calls fileId = some c → c.phase ≠ .held size) :
    s.held.get? fileId = none := by
  cases hheld : s.held.get? fileId with
  | none => rfl
  | some held =>
    obtain ⟨c, size, hc', hphase, -⟩ := h.entry hheld
    exact absurd hphase (hc c size hc')

/-- Every step keeps the invariant. -/
theorem Inv.step {event : Event FileId} (h : Inv P files s) (hstep : Step P L s event t) :
    Inv P (event.effect.apply files) t := by
  cases hstep with
  | @call fileId origin disk result hnone hsplit =>
    refine h.setCall (fun b => ?_) ?_ nofun (h.get?_eq_none fun c size hc => ?_)
    · exact iff_of_false List.not_mem_nil fun ⟨c, hc, _⟩ => nomatch hnone.symm.trans hc
    · exact fun ⟨c, hc, _⟩ => nomatch hnone.symm.trans hc
    · exact nomatch hnone.symm.trans hc
  | make hc hphase hnext hpacked =>
    obtain rfl := Except.ok.inj hpacked
    exact h.make hc hphase
  | @record fileId c original hc hphase hlen horiginal =>
    have hnone : s.held.get? fileId = none := by
      refine h.get?_eq_none fun c' size hc' hheld => ?_
      obtain rfl := Option.some.inj (hc.symm.trans hc')
      exact nomatch hphase.symm.trans hheld
    have hset := h.setCall (c := { c with phase := .held original.length }) (fun b => ?_)
      (not_gone hc (by rw [hphase]; exact nofun)) nofun hnone
    · exact hset.enter (c := { c with phase := .held original.length }) calls_self rfl hlen
    · exact ⟨fun hb => ⟨c, hc, hb⟩, fun ⟨c', hc', hb⟩ => by
        obtain rfl := Option.some.inj (hc.symm.trans hc')
        exact hb⟩
  | @raises fileId c hc hphase =>
    refine h.setCall (fun b => ?_) (not_gone hc (by rw [hphase]; exact nofun)) nofun
      (h.get?_eq_none fun c' size hc' hheld => ?_)
    · exact ⟨fun hb => ⟨c, hc, hb⟩, fun ⟨c', hc', hb⟩ => by
        obtain rfl := Option.some.inj (hc.symm.trans hc')
        exact hb⟩
    · obtain rfl := Option.some.inj (hc.symm.trans hc')
      exact nomatch hphase.symm.trans hheld
  | forget hheld hc => exact h.forget hheld hc
  | @collapse b f hb hf =>
    have hgone : s.Gone f.owner := by
      obtain ⟨f', hf', hgone⟩ := h.forgetting hb
      obtain rfl := Option.some.inj (hf.symm.trans hf')
      exact hgone
    have hempty : f.box.collapse.Holds [] :=
      ⟨by rw [FallingBox.snapshot]; cases f.box.collapse.active <;> rfl, rfl⟩
    have hset := h.setBox hf (.empty hempty hgone)
    refine ⟨fun {i g} hg => ?_, hset.owned, hset.made, hset.entry,
      fun hi => hset.forgetting (List.mem_of_mem_erase hi), hset.files⟩
    rcases getElem?_setBox hf hg with ⟨rfl, rfl⟩ | ⟨hi, -⟩
    · exact .empty hempty hgone
    · cases hset.lives hg with
      | full hold hrest => exact .full hold fun hg' => (List.mem_erase_of_ne hi).mpr (hrest hg')
      | empty hold hrest => exact .empty hold hrest
  | @fall b f hf =>
    refine h.setBox hf ?_
    cases h.lives hf with
    | full hold hgone => exact .full (FallingBox.holds_fall hold) hgone
    | empty hold hgone => exact .empty (FallingBox.holds_fall hold) hgone

/-- Whoever saves, retrieves and forgets sees a store of files. -/
theorem refines (P : Primitives) (L : Splitter.Libraries) :
    Refines (Step P L) (start : State FileId) Event.effect (Inv P) where
  start := inv_start P
  step h hstep := h.step hstep

/-! ### A run -/

/-- Bytes that can be split are saved, if nothing raises. -/
theorem exists_saving {fileId : FileId} {raw : Bytes} {nameHint : PyStr}
    {result : Splitter.SplitResult} (hsplit : Splitter.splitBytes L raw nameHint = .ok result)
    (hnew : s.calls fileId = none) :
    ∃ t file held c, Run (Step P L) s
        [.called fileId (.bytes raw nameHint), .quiet, .quiet, .quiet, .saved fileId file] t ∧
      t.held.get? fileId = some held ∧ t.calls fileId = some c ∧
      (∀ p, result.piece p = .bytes (file.piece p)) ∧
      file.reconstructFrom = result.reconstructFrom := by
  obtain ⟨content, structural, metadata, which⟩ := result
  obtain ⟨content, structural, rfl, rfl⟩ := Splitter.splitBytes_bytes hsplit
  obtain ⟨original, horiginal⟩ : ∃ original, (if which = .content then FilePiece.bytes content
      else .bytes structural) = .bytes original := by
    split
    · exact ⟨_, rfl⟩
    · exact ⟨_, rfl⟩
  have hsplit' : (Origin.bytes raw nameHint).split L (fun _ => none) = .ok _ := hsplit
  have hcall : Step P L s (.called fileId (.bytes raw nameHint)) _ := .call hnew hsplit'
  have hmaking := (((Run.single hcall).snoc (.make calls_self rfl rfl rfl)).snoc
    (.make calls_self rfl rfl rfl)).snoc (.make calls_self rfl rfl rfl)
  refine ⟨_, _, _, _, hmaking.snoc (.record calls_self rfl rfl horiginal),
    (Dict.get?_set ..).trans (if_pos rfl), calls_self, fun p => ?_, rfl⟩
  cases p with
  | content => simp [Splitter.SplitResult.piece, State.file, SecureFiles.Call.entry,
      SecureFiles.place, State.setCall]
  | structural => simp [Splitter.SplitResult.piece, State.file, SecureFiles.Call.entry,
      SecureFiles.place, State.setCall]
  | metadata => simp [Splitter.SplitResult.piece, State.file, SecureFiles.Call.entry,
      SecureFiles.place, State.setCall]

theorem sample_split :
    ∃ result, Splitter.splitBytes .sample [104, 105] (pyStr "a.txt") = .ok result := by
  have hsplits : (Splitter.splitBytes Splitter.Libraries.sample [104, 105]
      (pyStr "a.txt")).toOption.isSome = true := by decide +kernel
  cases hsplit : Splitter.splitBytes Splitter.Libraries.sample [104, 105] (pyStr "a.txt") with
  | error e =>
    rw [hsplit] at hsplits
    cases hsplits
  | ok result => exact ⟨result, rfl⟩

theorem sample_saving : ∃ (t : State ℕ) (file : File) (held : SecureFiles.Held) (c : Call),
    Run (Step .sample .sample) start
      [.called 0 (.bytes [104, 105] (pyStr "a.txt")), .quiet, .quiet, .quiet, .saved 0 file] t ∧
    t.held.get? 0 = some held ∧ t.calls 0 = some c := by
  obtain ⟨result, hsplit⟩ := sample_split
  obtain ⟨t, file, held, c, hrun, hheld, hc, -⟩ :=
    exists_saving (P := .sample) (s := (start : State ℕ)) hsplit rfl
  exact ⟨t, file, held, c, hrun, hheld, hc⟩

/-! ### Ways out of the table -/

variable {fileId : FileId} {held : SecureFiles.Held} {file : File}

/-- All that can be asked of a file gives what it is. -/
structure Serves (P : Primitives) (s : State FileId) (fileId : FileId) (file : File) : Prop where
  size : s.originalSizeBytes fileId = .ok file.originalSize
  retrieve : ∀ which, s.retrieve P fileId which = .ok (file.get which)
  heldSize : s.heldSizeBytes fileId = .ok ((P.pack (file.piece .content)).length
    + (P.pack (file.piece .structural)).length + (P.pack (file.piece .metadata)).length)

/-- Nothing can be got out under the id. -/
structure Refuses (P : Primitives) (s : State FileId) (fileId : FileId) : Prop where
  size : s.originalSizeBytes fileId = .error .keyError
  retrieve : ∀ which, s.retrieve P fileId which = .error .keyError
  heldSize : s.heldSizeBytes fileId = .error .keyError

theorem refuses_of_get?_eq_none (h : s.held.get? fileId = none) : Refuses P s fileId where
  size := by rw [State.originalSizeBytes, h]
  retrieve which := by rw [State.retrieve, h]
  heldSize := by rw [State.heldSizeBytes, h]

omit [DecidableEq FileId] in
theorem boxAt_of_getElem? {b : ℕ} {f : Falling FileId} (hf : s.boxes[b]? = some f) :
    s.boxAt b = .ok f.box := by
  rw [State.boxAt, pyIndex_natCast hf]
  rfl

/-- The box of a piece is there, and was made from it for the file. -/
theorem Inv.box (h : Inv P files s) (hheld : s.held.get? fileId = some held) (p : Piece) :
    ∃ f, s.boxes[held.box p]? = some f ∧ f.owner = fileId ∧ f.data = (s.file held).piece p := by
  obtain ⟨c, size, hc, -, hlen, rfl⟩ := h.entry hheld
  obtain ⟨f, hf, hown⟩ := h.made hc (List.mem_of_getElem? (entry_box hlen size p))
  refine ⟨f, hf, hown, ?_⟩
  show _ = (s.boxes.map Falling.data).getD _ []
  rw [List.getD_eq_getElem?_getD, List.getElem?_map, hf]
  rfl

/-- And it still holds it. -/
theorem Inv.holds (h : Inv P files s) (hheld : s.held.get? fileId = some held) (p : Piece) :
    ∃ f, s.boxes[held.box p]? = some f ∧ f.box.Holds (P.pack ((s.file held).piece p)) := by
  obtain ⟨f, hf, hown, hdata⟩ := h.box hheld p
  refine ⟨f, hf, ?_⟩
  cases h.lives hf with
  | full hold _ => rwa [hdata] at hold
  | empty _ hgone =>
    obtain ⟨c, size, hc, hphase, -⟩ := h.entry hheld
    exact absurd (hown ▸ hgone) (not_gone hc (by rw [hphase]; exact nofun))

theorem Inv.serves (h : Inv P files s) (hheld : s.held.get? fileId = some held) :
    Serves P s fileId (s.file held) where
  size := by
    rw [State.originalSizeBytes, hheld]
    rfl
  retrieve which := by
    obtain ⟨f, hf, hold⟩ := h.holds hheld (which.getD held.reconstructFrom)
    rw [State.retrieve, hheld]
    dsimp only
    rw [State.read, boxAt_of_getElem? hf, ok_bind, hold.snapshot, P.unpack_pack]
    rfl
  heldSize := by
    obtain ⟨f, hf, hold⟩ := h.holds hheld .content
    obtain ⟨g, hg, gold⟩ := h.holds hheld .structural
    obtain ⟨k, hk, kold⟩ := h.holds hheld .metadata
    rw [State.heldSizeBytes, hheld]
    dsimp only
    rw [boxAt_of_getElem? hf, ok_bind, boxAt_of_getElem? hg, ok_bind, boxAt_of_getElem? hk, ok_bind,
      hold.snapshot, gold.snapshot, kold.snapshot]
    rfl

/-- **Retrieving files.**  After any interleaving of saves, falls and forgets, the ids are those
of the files that were saved and not forgotten since, in the order in which they were saved; each
is given as it was saved, at its sizes, and any other id is refused. -/
theorem serves_stored {events : List (Event FileId)}
    (hrun : Run (Step P L) (start : State FileId) events s) :
    s.listIds = (stored (events.map Event.effect)).keys ∧ ∀ fileId,
      match (stored (events.map Event.effect)).get? fileId with
      | none => Refuses P s fileId
      | some file => Serves P s fileId file := by
  have hinv := (refines P L).run hrun
  refine ⟨hinv.files.keys, fun fileId => ?_⟩
  obtain ⟨hnone, hheld⟩ | ⟨file, held, hfile, hheld, rfl⟩ := hinv.files.cases fileId
  · rw [hnone]
    exact refuses_of_get?_eq_none hheld
  · rw [hfile]
    exact hinv.serves hheld

theorem serves_stored_sample :
    ∃ (events : List (Event ℕ)) (s : State ℕ),
      Run (Step .sample .sample) (start : State ℕ) events s ∧
      s.listIds = (stored (events.map Event.effect)).keys ∧ ∀ fileId,
        match (stored (events.map Event.effect)).get? fileId with
        | none => Refuses .sample s fileId
        | some file => Serves .sample s fileId file := by
  obtain ⟨t, file, held, c, hrun, -⟩ := sample_saving
  exact ⟨_, t, hrun, serves_stored hrun⟩

/-! ### What is saved -/

/-- A box stays what it was made for. -/
theorem Step.same {event : Event FileId} (hstep : Step P L s event t) {b : ℕ}
    {f : Falling FileId} (hf : s.boxes[b]? = some f) :
    ∃ f', t.boxes[b]? = some f' ∧ f'.data = f.data ∧ f'.owner = f.owner := by
  have hset : ∀ (i : ℕ) (g g' : Falling FileId), s.boxes[i]? = some g → g'.data = g.data →
      g'.owner = g.owner →
      ∃ f', (s.boxes.set i g')[b]? = some f' ∧ f'.data = f.data ∧ f'.owner = f.owner := by
    intro i g g' hg hdata hown
    by_cases hi : b = i
    · subst hi
      obtain rfl := Option.some.inj (hf.symm.trans hg)
      exact ⟨g', List.getElem?_set_self (List.getElem?_eq_some_iff.mp hg).1, hdata, hown⟩
    · exact ⟨f, (List.getElem?_set_ne (Ne.symm hi)).trans hf, rfl, rfl⟩
  cases hstep with
  | call | record | raises | forget => exact ⟨f, hf, rfl, rfl⟩
  | make =>
    exact ⟨f, (List.getElem?_append_left (List.getElem?_eq_some_iff.mp hf).1).trans hf, rfl, rfl⟩
  | collapse _ hg => exact hset _ _ _ hg rfl rfl
  | fall hg => exact hset _ _ _ hg rfl rfl

/-- The pieces of a call, in the order in which the boxes are made. -/
def pieces (c : Call) : List FilePiece :=
  [c.result.content, c.result.structural, .bytes c.result.metadata]

/-- The calls have come from splits, and their boxes from the pieces. -/
structure Comes (L : Splitter.Libraries) (events : List (Event FileId)) (s : State FileId) :
    Prop where
  call : ∀ {fileId : FileId} {c : Call}, s.calls fileId = some c → ∃ origin disk,
    .called fileId origin ∈ events ∧ origin.split L disk = .ok c.result ∧ c.name = origin.name
  piece : ∀ {fileId : FileId} {c : Call} {k b : ℕ}, s.calls fileId = some c → c.boxes[k]? = some b →
    ∃ f : Falling FileId, s.boxes[b]? = some f ∧ (pieces c)[k]? = some (FilePiece.bytes f.data)

omit [DecidableEq FileId] in
theorem comes_start (L : Splitter.Libraries) : Comes L [] (start : State FileId) :=
  ⟨fun h => (nomatch h), fun h _ => (nomatch h)⟩

omit [DecidableEq FileId] in
theorem Comes.before {events : List (Event FileId)} {event : Event FileId} (h : Comes L events s)
    {fileId : FileId} {c : Call} (hc : s.calls fileId = some c) : ∃ origin disk,
    .called fileId origin ∈ events ++ [event] ∧ origin.split L disk = .ok c.result ∧
      c.name = origin.name := by
  obtain ⟨origin, disk, hmem, hrest⟩ := h.call hc
  exact ⟨origin, disk, List.mem_append_left _ hmem, hrest⟩

theorem Comes.kept {events : List (Event FileId)} {event : Event FileId} (h : Comes L events s)
    (hstep : Step P L s event t) {fileId : FileId} {c : Call} {k b : ℕ}
    (hc : s.calls fileId = some c) (hb : c.boxes[k]? = some b) :
    ∃ f : Falling FileId, t.boxes[b]? = some f ∧
      (pieces c)[k]? = some (FilePiece.bytes f.data) := by
  obtain ⟨f, hf, hpiece⟩ := h.piece hc hb
  obtain ⟨f', hf', hdata, -⟩ := hstep.same hf
  exact ⟨f', hf', by rw [hdata, hpiece]⟩

/-- One call is new, or goes on, and the others are as they were. -/
theorem Comes.setCall {events : List (Event FileId)} {event : Event FileId}
    (h : Comes L events s) (hstep : Step P L s event t) {other : FileId} {c' : Call}
    (hcalls : t.calls = Function.update s.calls other (some c'))
    (hcall : ∃ origin disk, .called other origin ∈ events ++ [event] ∧
      origin.split L disk = .ok c'.result ∧ c'.name = origin.name)
    (hpiece : ∀ {k b : ℕ}, c'.boxes[k]? = some b → ∃ f : Falling FileId,
      t.boxes[b]? = some f ∧ (pieces c')[k]? = some (FilePiece.bytes f.data)) :
    Comes L (events ++ [event]) t := by
  have hcases : ∀ {i : FileId} {d : Call}, t.calls i = some d →
      (i = other ∧ d = c') ∨ s.calls i = some d := by
    intro i d hd
    rw [hcalls] at hd
    by_cases hi : i = other
    · rw [hi, Function.update_self] at hd
      exact Or.inl ⟨hi, (Option.some.inj hd).symm⟩
    · exact Or.inr ((Function.update_of_ne hi ..).symm.trans hd)
  refine ⟨fun hd => ?_, fun {i d k b} hd hb => ?_⟩
  · rcases hcases hd with ⟨rfl, rfl⟩ | hd
    · exact hcall
    · exact h.before hd
  · rcases hcases hd with ⟨rfl, rfl⟩ | hd
    · exact hpiece hb
    · exact h.kept hstep hd hb

/-- A call goes on with the same result and the same boxes. -/
theorem Comes.goes {events : List (Event FileId)} {event : Event FileId} (h : Comes L events s)
    (hstep : Step P L s event t) {other : FileId} {c c' : Call}
    (hcalls : t.calls = Function.update s.calls other (some c')) (hc : s.calls other = some c)
    (hresult : c'.result = c.result) (hname : c'.name = c.name) (hboxes : c'.boxes = c.boxes) :
    Comes L (events ++ [event]) t := by
  refine h.setCall hstep hcalls ?_ fun hb => ?_
  · rw [hresult, hname]
    exact h.before hc
  · rw [hboxes] at hb
    rw [pieces, hresult]
    exact h.kept hstep hc hb

theorem Comes.step {events : List (Event FileId)} {event : Event FileId} (h : Comes L events s)
    (hstep : Step P L s event t) : Comes L (events ++ [event]) t := by
  cases id hstep with
  | @call other origin disk result hnone hsplit =>
    refine h.setCall hstep rfl ⟨origin, disk, ?_, hsplit, rfl⟩ fun hb => ?_
    · exact List.mem_append_right _ List.mem_cons_self
    · cases hb
  | @make other c raw packed hc hphase hnext hpacked =>
    obtain ⟨origin, disk, hmem, hrest⟩ := h.call hc
    refine h.setCall hstep rfl ⟨origin, disk, List.mem_append_left _ hmem, hrest⟩
      fun {k b} hb => ?_
    obtain hold | ⟨rfl, rfl⟩ := getElem?_concat_cases hb
    · obtain ⟨f, hf, hpiece⟩ := h.kept hstep hc hold
      exact ⟨f, hf, hpiece⟩
    -- the box that has just been made
    · exact ⟨_, List.getElem?_concat_length .., hnext⟩
  | record hc _ _ _ => exact h.goes hstep rfl hc rfl rfl rfl
  | raises hc _ => exact h.goes hstep rfl hc rfl rfl rfl
  | forget _ hc => exact h.goes hstep rfl hc rfl rfl rfl
  | collapse => exact ⟨h.before, h.kept hstep⟩
  | fall => exact ⟨h.before, h.kept hstep⟩

/-- **Saving.**  A file in the store was handed over as bytes: it is the pieces of their split,
the piece to reconstruct from is the bytes, and the size is theirs.  No path is ever saved. -/
theorem saved_bytes {events : List (Event FileId)}
    (hrun : Run (Step P L) (start : State FileId) events s) (hsaved : .saved fileId file ∈ events) :
    ∃ raw nameHint result, .called fileId (.bytes raw nameHint) ∈ events ∧
      Splitter.splitBytes L raw nameHint = .ok result ∧
      (∀ p, result.piece p = .bytes (file.piece p)) ∧
      file.reconstructFrom = result.reconstructFrom ∧ file.get none = raw ∧
      file.originalSize = raw.length ∧ file.name = nameHint := by
  obtain ⟨pre, post, rfl⟩ := List.append_of_mem hsaved
  obtain ⟨u, v, hpre, hstep⟩ := hrun.before
  have hcomes : Comes L pre u := hpre.history (comes_start L) fun h hs => h.step hs
  cases hstep with
  | @record _ c original hc hphase hlen horiginal =>
    obtain ⟨origin, disk, hcalled, hsplit, hname⟩ := hcomes.call hc
    set file := u.file (c.entry original.length) with hfile
    have hpieces : ∀ p, c.result.piece p = .bytes (file.piece p) := by
      intro p
      obtain ⟨f, hf, hpiece⟩ := hcomes.piece hc (entry_box hlen original.length p)
      have hdata : file.piece p = f.data := by
        show (u.boxes.map Falling.data).getD _ [] = _
        rw [List.getD_eq_getElem?_getD, List.getElem?_map, hf]
        rfl
      rw [hdata]
      cases p with
      | content => exact Option.some.inj hpiece
      | structural => exact Option.some.inj hpiece
      | metadata => exact Option.some.inj hpiece
    cases origin with
    | path path =>
      obtain ⟨hmarker, -⟩ := Splitter.splitFile_marks hsplit
      exact nomatch (hpieces _).symm.trans hmarker
    | bytes raw nameHint =>
      have hraw : c.result.piece c.result.reconstructFrom = .bytes raw :=
        Splitter.splitBytes_original hsplit
      have hwhole : file.piece c.result.reconstructFrom = raw :=
        FilePiece.bytes.inj ((hpieces _).symm.trans hraw)
      refine ⟨raw, nameHint, c.result, List.mem_append_left _ hcalled, hsplit, hpieces, rfl, hwhole,
        ?_, hname⟩
      show original.length = raw.length
      congr 1
      refine FilePiece.bytes.inj (horiginal.symm.trans ?_)
      rw [← hraw, SecureFiles.Call.original]
      have hnot := (SecureFiles.shaped_split hsplit).original
      cases hwhich : c.result.reconstructFrom with
      | content => rfl
      | structural => rfl
      | metadata => exact absurd hwhich hnot

theorem saved_bytes_sample :
    ∃ (events : List (Event ℕ)) (file : File), .saved 0 file ∈ events ∧
      ∃ raw nameHint result, .called 0 (.bytes raw nameHint) ∈ events ∧
        Splitter.splitBytes .sample raw nameHint = .ok result ∧
        (∀ p, result.piece p = .bytes (file.piece p)) ∧
        file.reconstructFrom = result.reconstructFrom ∧ file.get none = raw ∧
        file.originalSize = raw.length ∧ file.name = nameHint := by
  obtain ⟨t, file, held, c, hrun, -⟩ := sample_saving
  have hsaved : Event.saved 0 file ∈ [Event.called 0 (.bytes [104, 105] (pyStr "a.txt")), .quiet,
      .quiet, .quiet, .saved 0 file] := by simp
  exact ⟨_, file, hsaved, saved_bytes hrun hsaved⟩

/-! ### What is retrieved late -/

/-- A file that is held stays so until it is forgotten, and a file that is forgotten stays so. -/
theorem Inv.held_step (h : Inv P files s) {event : Event FileId} (hstep : Step P L s event t)
    (fileId : FileId) (held : SecureFiles.Held) :
    (s.held.get? fileId = some held → event ≠ .forgot fileId → t.held.get? fileId = some held) ∧
      (s.Gone fileId ∨ event = .forgot fileId → t.Gone fileId) := by
  have hset : ∀ {other : FileId} {c c' : Call} {u : State FileId}, s.calls other = some c →
      c.phase = .making → u.calls = s.calls → s.Gone fileId → (u.setCall other c').Gone fileId := by
    rintro other c c' u hc hphase hcalls ⟨d, hd, hgone⟩
    have hne : fileId ≠ other := by
      rintro rfl
      obtain rfl := Option.some.inj (hc.symm.trans hd)
      exact nomatch hphase.symm.trans hgone
    exact ⟨d, (calls_of_ne hne).trans (hcalls ▸ hd), hgone⟩
  cases hstep with
  | @call other origin disk result hnone _ =>
    refine ⟨fun hheld _ => hheld, fun hgone => ?_⟩
    obtain ⟨c, hc, hphase⟩ := hgone.resolve_right nofun
    have hne : fileId ≠ other := by
      rintro rfl
      exact nomatch hnone.symm.trans hc
    exact ⟨c, (calls_of_ne hne).trans hc, hphase⟩
  | make hc hphase _ _ =>
    exact ⟨fun hheld _ => hheld, fun hgone => hset hc hphase rfl (hgone.resolve_right nofun)⟩
  | raises hc hphase =>
    exact ⟨fun hheld _ => hheld, fun hgone => hset hc hphase rfl (hgone.resolve_right nofun)⟩
  | @record other c original hc hphase hlen horiginal =>
    refine ⟨fun hheld _ => ?_, fun hgone => hset hc hphase rfl (hgone.resolve_right nofun)⟩
    have hne : fileId ≠ other := by
      rintro rfl
      obtain ⟨d, size, hd, hp, -⟩ := h.entry hheld
      obtain rfl := Option.some.inj (hc.symm.trans hd)
      exact nomatch hphase.symm.trans hp
    exact (Dict.get?_set ..).trans ((if_neg hne).trans hheld)
  | @forget other c held' hheld' hc =>
    constructor
    · intro hheld hother
      have hne : fileId ≠ other := fun heq => hother (by rw [heq])
      exact (Dict.get?_erase ..).trans ((if_neg hne).trans hheld)
    · intro hgone
      by_cases hne : fileId = other
      · exact ⟨_, by rw [hne]; exact calls_self, rfl⟩
      · obtain ⟨d, hd, hphase⟩ := hgone.resolve_right fun heq => hne (Event.forgot.inj heq).symm
        exact ⟨d, (calls_of_ne hne).trans hd, hphase⟩
  | collapse => exact ⟨fun hheld _ => hheld, fun hgone => hgone.resolve_right nofun⟩
  | fall => exact ⟨fun hheld _ => hheld, fun hgone => hgone.resolve_right nofun⟩

/-- **Retrieving late.**  A retrieval has looked its file up, and then other steps are taken.  It
is given the piece; or the file has been forgotten in the meantime and it is given nothing, with
no error.  Once the boxes have been collapsed it is given nothing in any case. -/
theorem read_cases {events later : List (Event FileId)}
    (hrun : Run (Step P L) (start : State FileId) events s)
    (hheld : s.held.get? fileId = some held) (hlater : Run (Step P L) s later t)
    (which : Option Piece) :
    ∃ file, (stored (events.map Event.effect)).get? fileId = some file ∧
      (t.read P held which = .ok (file.get which) ∨
        (.forgot fileId ∈ later ∧ t.read P held which = .ok [])) ∧
      (.forgot fileId ∈ later → t.forgetting = [] → t.read P held which = .ok []) := by
  have hinv := (refines P L).run hrun
  obtain ⟨hnone, hheld'⟩ | ⟨file, held', hfile, hheld', rfl⟩ := hinv.files.cases fileId
  · exact nomatch hheld'.symm.trans hheld
  obtain rfl := Option.some.inj (hheld'.symm.trans hheld)
  refine ⟨_, hfile, ?_⟩
  obtain ⟨f, hf, hown, hdata⟩ := hinv.box hheld (which.getD held'.reconstructFrom)
  -- the box is still there, and the file is held or forgotten
  obtain ⟨⟨files, ht⟩, ⟨g, hg, hgdata, hgown⟩, hstill, hgone⟩ :
      (∃ files, Inv P files t) ∧
      (∃ g, t.boxes[held'.box (which.getD held'.reconstructFrom)]? = some g ∧ g.data = f.data ∧
        g.owner = f.owner) ∧
      (.forgot fileId ∉ later → t.held.get? fileId = some held') ∧
      (.forgot fileId ∈ later → t.Gone fileId) := by
    refine hlater.history (I := fun later t => (∃ files, Inv P files t) ∧
      (∃ g, t.boxes[held'.box (which.getD held'.reconstructFrom)]? = some g ∧ g.data = f.data ∧
        g.owner = f.owner) ∧
      (.forgot fileId ∉ later → t.held.get? fileId = some held') ∧
      (.forgot fileId ∈ later → t.Gone fileId))
      ⟨⟨_, hinv⟩, ⟨f, hf, rfl, rfl⟩, fun _ => hheld, fun h => nomatch h⟩ ?_
    rintro labels u event v ⟨⟨files, hu⟩, ⟨g, hg, hgdata, hgown⟩, hstill, hgone⟩ hstep
    obtain ⟨g', hg', hdata', hown'⟩ := hstep.same hg
    obtain ⟨hkept, hlost⟩ := hu.held_step hstep fileId held'
    refine ⟨⟨_, hu.step hstep⟩, ⟨g', hg', hdata'.trans hgdata, hown'.trans hgown⟩,
      fun hnot => ?_, fun hmem => ?_⟩
    · rw [List.mem_append, List.mem_singleton, not_or] at hnot
      exact hkept (hstill hnot.1) fun heq => hnot.2 heq.symm
    · rcases List.mem_append.mp hmem with hbefore | hlast
      · exact hlost (Or.inl (hgone hbefore))
      · exact hlost (Or.inr (List.mem_singleton.mp hlast).symm)
  have hread : ∀ data, g.box.Holds (P.pack data) → t.read P held' which = .ok data := by
    intro data hold
    rw [State.read, boxAt_of_getElem? hg, ok_bind, hold.snapshot, P.unpack_pack]
  have hnothing : P.pack [] = [] := if_pos rfl
  constructor
  · cases ht.lives hg with
    | full hold _ =>
      refine Or.inl (hread _ ?_)
      rwa [hgdata, hdata] at hold
    | empty hold hlost =>
      by_cases hmem : .forgot fileId ∈ later
      · exact Or.inr ⟨hmem, hread [] (hnothing ▸ hold)⟩
      · obtain ⟨c, size, hc, hphase, -⟩ := ht.entry (hstill hmem)
        rw [hgown, hown] at hlost
        exact absurd hlost (not_gone hc (by rw [hphase]; exact nofun))
  · intro hmem hdone
    cases ht.lives hg with
    | full _ hrest =>
      have hlost := hrest (by rw [hgown, hown]; exact hgone hmem)
      rw [hdone] at hlost
      cases hlost
    | empty hold _ => exact hread [] (hnothing ▸ hold)

/-- Between looking up and reading, the file is forgotten. -/
theorem read_cases_sample :
    ∃ (t : State ℕ) (held : SecureFiles.Held) (file : File),
      (t.read .sample held none = .ok (file.get none) ∨
        (Event.forgot 0 ∈ [Event.forgot 0] ∧ t.read .sample held none = .ok [])) ∧
      (Event.forgot 0 ∈ [Event.forgot 0] → t.forgetting = [] →
        t.read .sample held none = .ok []) := by
  obtain ⟨s, file, held, c, hrun, hheld, hc⟩ := sample_saving
  obtain ⟨file', -, hread⟩ := read_cases hrun hheld (Run.single (.forget hheld hc)) none
  exact ⟨_, held, file', hread⟩

end PlainFiles
