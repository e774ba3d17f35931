/-
`system.py`, `packed_system.py` and `secure_system.py`: three stores, one interface.

All three are said to do the same job, with boxes of their own, with shared boxes, and with boxes
that encrypt what they hold.  What the job is is told by a dictionary of files (`answer`); each
store does it in every state of every run, the one with shared boxes for every file that no call
of `forget` has in its hands, and so they cannot be told apart by what they list and give
(`interchange`).
-/
import Mathlib
import VStorage.PackedFiles
import VStorage.PlainFiles

namespace Interchange

open KeyedStore (Alike Effect alike_map changes stored stored_eq_of_changes)

/-! ### The job -/

/-- What a store keeps of a file. -/
structure Kept where
  piece : Piece → Bytes
  reconstructFrom : Piece

variable {FileId : Type*} [DecidableEq FileId]

/-- What `retrieve` is for; `none` is "full". -/
def answer (files : Dict FileId Kept) (fileId : FileId) (which : Option Piece) :
    Except PyError Bytes :=
  match files.get? fileId with
  | none => .error .keyError
  | some kept => .ok (kept.piece (which.getD kept.reconstructFrom))

def ofFile (file : SecureFiles.File) : Kept := ⟨file.piece, file.reconstructFrom⟩

def ofPacked (file : PackedFiles.File) : Kept := ⟨file.piece, file.entry.1⟩

/-- What is done to the store with boxes of their own, or with those that encrypt. -/
def effect (event : SecureFiles.Event FileId) : Effect FileId Kept := event.effect.map ofFile

/-- What is done to the files in shared boxes. -/
def fileEffect : PackedFiles.Event FileId → Effect FileId PackedFiles.File
  | .saved i file => .put i file
  | .forgotten i => .drop i
  | _ => .keep

def packedEffect (event : PackedFiles.Event FileId) : Effect FileId Kept :=
  (fileEffect event).map ofPacked

/-- `retrieve`, of the storage with shared boxes, when nothing comes between. -/
def packedRetrieve {Thread : Type*} (P : Primitives) (s : PackedFiles.State Thread FileId)
    (fileId : FileId) (which : Option Piece) : Except PyError Bytes :=
  match s.system.entries.get? fileId with
  | none => .error .keyError
  | some (reconstructFrom, _) => do
    P.unpack (← ((s.system.box (which.getD reconstructFrom)).get fileId).2)

/-- What is answered from what is seen of the files. -/
theorem answer_eq {α : Type*} {f : α → Kept} {d : Dict FileId α} {d' : Dict FileId Kept}
    (h : Alike (fun _ a b => b = f a) d d') (fileId : FileId) (which : Option Piece) :
    answer d' fileId which = match d.get? fileId with
      | none => .error .keyError
      | some a => .ok ((f a).piece (which.getD (f a).reconstructFrom)) := by
  rw [answer]
  obtain ⟨hnone, hnone'⟩ | ⟨a, b, ha, hb, rfl⟩ := h.cases fileId
  · rw [hnone, hnone']
  · rw [ha, hb]

theorem alike_effect (events : List (SecureFiles.Event FileId)) :
    Alike (fun _ file kept => kept = ofFile file)
      (stored (events.map SecureFiles.Event.effect)) (stored (events.map effect)) := by
  have hview := alike_map ofFile (events.map SecureFiles.Event.effect)
  rwa [List.map_map] at hview

theorem alike_packedEffect (events : List (PackedFiles.Event FileId)) :
    Alike (fun _ file kept => kept = ofPacked file)
      (stored (events.map fileEffect)) (stored (events.map packedEffect)) := by
  have hview := alike_map ofPacked (events.map fileEffect)
  rwa [List.map_map] at hview

theorem alike_tableEffect (events : List (PackedFiles.Event FileId)) :
    Alike (fun _ file entry => entry = file.entry)
      (stored (events.map fileEffect)) (stored (events.map PackedFiles.Event.tableEffect)) := by
  have hview := alike_map PackedFiles.File.entry (events.map fileEffect)
  have hmap : PackedFiles.Event.tableEffect
      = Effect.map PackedFiles.File.entry ∘ (fileEffect : _ → Effect FileId _) := by
    funext event
    cases event <;> rfl
  rwa [List.map_map, ← hmap] at hview

theorem saved_of_stored {events : List (PackedFiles.Event FileId)} {fileId : FileId}
    {file : PackedFiles.File} (h : (stored (events.map fileEffect)).get? fileId = some file) :
    .saved fileId file ∈ events := by
  obtain ⟨pre, post, hsplit, -⟩ := KeyedStore.get?_stored.mp h
  have hmem : Effect.put fileId file ∈ events.map fileEffect := by
    rw [hsplit]
    exact List.mem_append_right _ List.mem_cons_self
  obtain ⟨event, hevent, heffect⟩ := List.mem_map.mp hmem
  cases event with
  | saved i file' =>
    obtain ⟨rfl, rfl⟩ := Effect.put.inj heffect
    exact hevent
  | quiet | added | cut | forgotten | answered => cases heffect

/-! ### Who does it -/

variable {P : Primitives} {L : Splitter.Libraries} {trustGroup : Bool}
  {watchdog : Option ProcessWatchdog} {disk : Splitter.Disk}

/-- The store with boxes that encrypt. -/
theorem secure_answers {events : List (SecureFiles.Event FileId)} {s : SecureFiles.State FileId}
    (hrun : Run (SecureFiles.Step P L trustGroup) (SecureFiles.start watchdog disk) events s) :
    s.listIds = (stored (events.map effect)).keys ∧ ∀ between fileId which,
      s.retrieve P between fileId which = answer (stored (events.map effect)) fileId which := by
  have hinv := (SecureFiles.refines P L trustGroup watchdog disk).run hrun
  have hview := alike_effect events
  refine ⟨hinv.files.keys.trans hview.keys.symm, fun between fileId which => ?_⟩
  rw [answer_eq hview]
  obtain ⟨hnone, hheld⟩ | ⟨file, held, hfile, hheld, -⟩ := hinv.files.cases fileId
  · rw [(SecureFiles.refuses_of_get?_eq_none hheld).retrieve, hnone]
  · rw [(hinv.serves hheld hfile).retrieve, hfile]
    rfl

/-- The store with boxes of their own. -/
theorem plain_answers {events : List (SecureFiles.Event FileId)} {s : PlainFiles.State FileId}
    (hrun : Run (PlainFiles.Step P L) PlainFiles.start events s) :
    s.listIds = (stored (events.map effect)).keys ∧ ∀ fileId which,
      s.retrieve P fileId which = answer (stored (events.map effect)) fileId which := by
  have hinv := (PlainFiles.refines P L).run hrun
  have hview := alike_effect events
  refine ⟨hinv.files.keys.trans hview.keys.symm, fun fileId which => ?_⟩
  rw [answer_eq hview]
  obtain ⟨hnone, hheld⟩ | ⟨file, held, hfile, hheld, rfl⟩ := hinv.files.cases fileId
  · rw [(PlainFiles.refuses_of_get?_eq_none hheld).retrieve, hnone]
  · rw [(hinv.serves hheld).retrieve, hfile]
    rfl

/-- A call of `forget` for the file is under way. -/
def Forgetting {Thread : Type*} (s : PackedFiles.State Thread FileId) (fileId : FileId) : Prop :=
  ∃ t todo, PackedFiles.task (s.system.pc t) = some ⟨.remove, fileId, todo⟩

/-- The store with shared boxes: a file that is being forgotten may have left some of them. -/
theorem packed_answers {Thread : Type*} [DecidableEq Thread]
    {events : List (PackedFiles.Event FileId)} {s : PackedFiles.State Thread FileId}
    (hrun : Run (PackedFiles.Step P) PackedFiles.start events s) :
    s.system.entries.keys = (stored (events.map packedEffect)).keys ∧ ∀ fileId which,
      ¬ Forgetting s fileId → packedRetrieve P s fileId which
        = answer (stored (events.map packedEffect)) fileId which := by
  obtain ⟨c, -, hmatches, htold⟩ := PackedFiles.refines hrun
  have htable := alike_tableEffect events
  have hview := alike_packedEffect events
  have hentries : s.system.entries = stored (events.map PackedFiles.Event.tableEffect) :=
    hmatches.entries.trans htold.entries
  refine ⟨?_, fun fileId which hforgetting => ?_⟩
  · rw [hentries, htable.keys, hview.keys]
  rw [answer_eq hview, packedRetrieve, hentries]
  obtain ⟨hnone, hnone'⟩ | ⟨file, entry, hfile, hentry, rfl⟩ := htable.cases fileId
  · rw [hnone, hnone']
  rw [hfile, hentry]
  -- the file is in the table and nobody is taking it out, so it is in all the boxes
  have hdrawn : c.drawn fileId = some file := htold.saved fileId file (saved_of_stored hfile)
  have hforget : ∀ t todo, c.task t ≠ some ⟨.remove, fileId, todo⟩ := fun t todo htask =>
    hforgetting ⟨t, todo, (hmatches.task t).trans htask⟩
  have hlisted : (c.stage fileId).Listed :=
    (((htold.inv.shows fileId file hdrawn).entry file.entry).mp
      (htold.entries ▸ hentry)).1
  have hpiece : ∀ p, (c.piece p).get? fileId = some (P.pack (file.piece p)) := fun p =>
    ((htold.inv.shows fileId file hdrawn).piece p _).mpr
      ⟨htold.inv.holds_of_listed hforget hlisted p, rfl⟩
  dsimp only
  rw [PackedFiles.packed_get (hmatches.box _) (hpiece _), ok_bind, P.unpack_pack]
  rfl

end Interchange
