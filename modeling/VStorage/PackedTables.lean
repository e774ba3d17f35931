/-
`packed_system.py`: what the shared boxes and the table hold while calls are under way.

Seen from the table, a shared box is a dictionary of compressed pieces, and a call of the storage
is a task: the boxes that it has still to pass.  `_hold` enters a file into the table after the
last box; `forget` takes it out after the last; `retrieve` looks into the table first and into
its box later.  So a file goes through stages, and the stage of a file says which dictionaries it
is in (`Inv`): no file is in the table that is not, or was not, in all the boxes, and of several
calls of `forget` for one file it is the first to pass the first box that goes on.

The stages and what an id was drawn for are bookkeeping; nothing reads them.
-/
import Mathlib
import VStorage.KeyedStore
import VStorage.PackedFailure

namespace PackedFiles

open KeyedStore (Effect stored)
open PackedFailure (Call)
open PackedFailure.System (pieces)

/-! ### Tasks and stages -/

/-- A file, by its pieces before they are compressed. -/
structure File where
  piece : Piece → Bytes
  entry : Piece × String

/-- What a call has still to do: the boxes to pass, and then the table. -/
structure Task (FileId : Type*) where
  call : Call
  fileId : FileId
  todo : List Piece

/-- How far a file has come. -/
inductive Stage (Thread : Type*)
  | unborn
  | adding (thread : Thread) (todo : List Piece)
  | live
  | cutting (thread : Thread) (todo : List Piece)
  | gone

/-- The piece is in its box. -/
def Stage.Holds {Thread : Type*} (which : Piece) : Stage Thread → Prop
  | .unborn | .gone => False
  | .adding _ todo => which ∉ todo
  | .live => True
  | .cutting _ todo => which ∈ todo

/-- The file is in the table. -/
def Stage.Listed {Thread : Type*} : Stage Thread → Prop
  | .live | .cutting _ _ => True
  | _ => False

/-- The file has been in the table. -/
def Stage.Entered {Thread : Type*} : Stage Thread → Prop
  | .unborn | .adding _ _ => False
  | _ => True

theorem Stage.Listed.entered {Thread : Type*} {stage : Stage Thread} (h : stage.Listed) :
    stage.Entered := by
  cases stage with
  | unborn => exact h.elim
  | adding => exact h.elim
  | live => trivial
  | cutting => trivial
  | gone => trivial

/-- The file is in the hands of a thread that has `todo` left. -/
def Stage.Hands {Thread : Type*} (thread : Thread) (todo : List Piece) (stage : Stage Thread) :
    Prop :=
  stage = .adding thread todo ∨ stage = .cutting thread todo

/-- What a step shows. -/
inductive Event (FileId : Type*)
  | quiet
  | added (fileId : FileId) (which : Piece) (data : Bytes)
  | saved (fileId : FileId) (file : File)
  | cut (fileId : FileId) (which : Piece)
  | forgotten (fileId : FileId)
  | answered (fileId : FileId) (which : Piece) (result : Except PyError Bytes)

/-- What happens to one file. -/
inductive Mark
  | added (which : Piece)
  | saved
  | cut (which : Piece)
  | forgotten
  deriving DecidableEq

/-- The life of a file, in order. -/
def lifecycle : List Mark :=
  [.added .content, .added .structural, .added .metadata, .saved,
    .cut .content, .cut .structural, .cut .metadata, .forgotten]

/-- How much of it has happened. -/
def Stage.marks {Thread : Type*} : Stage Thread → List Mark
  | .unborn => []
  | .adding _ todo => (pieces.filter (· ∉ todo)).map .added
  | .live => pieces.map .added ++ [.saved]
  | .cutting _ todo => pieces.map .added ++ .saved :: (pieces.filter (· ∉ todo)).map .cut
  | .gone => lifecycle

section Effects

variable {FileId : Type*}

def Event.mark [DecidableEq FileId] (i : FileId) : Event FileId → Option Mark
  | .added j which _ => if j = i then some (.added which) else none
  | .saved j _ => if j = i then some .saved else none
  | .cut j which => if j = i then some (.cut which) else none
  | .forgotten j => if j = i then some .forgotten else none
  | .quiet | .answered _ _ _ => none

/-- What an event does to a box. -/
def Event.effect (p : Piece) : Event FileId → Effect FileId Bytes
  | .added i which data => if which = p then .put i data else .keep
  | .cut i which => if which = p then .drop i else .keep
  | _ => .keep

/-- What an event does to the table. -/
def Event.tableEffect : Event FileId → Effect FileId (Piece × String)
  | .saved i file => .put i file.entry
  | .forgotten i => .drop i
  | _ => .keep

end Effects

/-- The boxes as dictionaries, the table, and the calls. -/
structure Tables (Thread FileId : Type*) where
  piece : Piece → Dict FileId Bytes
  entries : Dict FileId (Piece × String)
  task : Thread → Option (Task FileId)
  drawn : FileId → Option File
  stage : FileId → Stage Thread

namespace Tables

variable {Thread FileId : Type*}

def new : Tables Thread FileId where
  piece _ := .empty
  entries := .empty
  task _ := none
  drawn _ := none
  stage _ := .unborn

section Fields

variable {c : Tables Thread FileId}

def setTask [DecidableEq Thread] (c : Tables Thread FileId) (thread : Thread)
    (task : Option (Task FileId)) : Tables Thread FileId :=
  { c with task := Function.update c.task thread task }

def setStage [DecidableEq FileId] (c : Tables Thread FileId) (fileId : FileId)
    (stage : Stage Thread) : Tables Thread FileId :=
  { c with stage := Function.update c.stage fileId stage }

def setPiece (c : Tables Thread FileId) (which : Piece) (d : Dict FileId Bytes) :
    Tables Thread FileId :=
  { c with piece := Function.update c.piece which d }

theorem task_setTask [DecidableEq Thread] (thread t : Thread) (task : Option (Task FileId)) :
    (c.setTask thread task).task t = if t = thread then task else c.task t :=
  Function.update_apply ..

end Fields

variable [DecidableEq Thread] [DecidableEq FileId]

/-- What a thread does next.  An id is drawn once. -/
inductive Step (P : Primitives) :
    Tables Thread FileId → Event FileId → Tables Thread FileId → Prop
  | keep {c : Tables Thread FileId} : Step P c .quiet c
  | hold {c : Tables Thread FileId} {thread : Thread} {fileId : FileId} {file : File} :
      c.task thread = none → c.drawn fileId = none →
      Step P c .quiet
        (({ c with drawn := Function.update c.drawn fileId (some file) }.setTask thread
          (some ⟨.add (fun p => P.pack (file.piece p)) file.entry, fileId, pieces⟩)).setStage
            fileId (.adding thread pieces))
  | retrieve {c : Tables Thread FileId} {thread : Thread} {fileId : FileId}
      {entry : Piece × String} {which : Option Piece} :
      c.task thread = none → c.entries.get? fileId = some entry →
      Step P c .quiet (c.setTask thread (some ⟨.get, fileId, [which.getD entry.1]⟩))
  | forget {c : Tables Thread FileId} {thread : Thread} {fileId : FileId}
      {entry : Piece × String} :
      c.task thread = none → c.entries.get? fileId = some entry →
      Step P c .quiet (c.setTask thread (some ⟨.remove, fileId, pieces⟩))
  | add {c : Tables Thread FileId} {thread : Thread} {fileId : FileId} {which : Piece}
      {todo : List Piece} {packed : Piece → Bytes} {entry : Piece × String} :
      c.task thread = some ⟨.add packed entry, fileId, which :: todo⟩ →
      Step P c (.added fileId which (packed which))
        (((c.setPiece which ((c.piece which).set fileId (packed which))).setTask thread
          (some ⟨.add packed entry, fileId, todo⟩)).setStage fileId (.adding thread todo))
  | save {c : Tables Thread FileId} {thread : Thread} {fileId : FileId} {file : File}
      {packed : Piece → Bytes} {entry : Piece × String} :
      c.task thread = some ⟨.add packed entry, fileId, []⟩ → c.drawn fileId = some file →
      Step P c (.saved fileId file)
        (({ c with entries := c.entries.set fileId entry }.setTask thread none).setStage fileId
          .live)
  | cut {c : Tables Thread FileId} {thread : Thread} {fileId : FileId} {which : Piece}
      {todo : List Piece} :
      c.task thread = some ⟨.remove, fileId, which :: todo⟩ → fileId ∈ (c.piece which).keys →
      Step P c (.cut fileId which)
        (((c.setPiece which ((c.piece which).erase fileId)).setTask thread
          (some ⟨.remove, fileId, todo⟩)).setStage fileId (.cutting thread todo))
  | forgot {c : Tables Thread FileId} {thread : Thread} {fileId : FileId} :
      c.task thread = some ⟨.remove, fileId, []⟩ →
      Step P c (.forgotten fileId)
        (({ c with entries := c.entries.erase fileId }.setTask thread none).setStage fileId .gone)
  | answer {c : Tables Thread FileId} {thread : Thread} {fileId : FileId} {which : Piece}
      {todo : List Piece} {data : Bytes} :
      c.task thread = some ⟨.get, fileId, which :: todo⟩ →
      (c.piece which).get? fileId = some data →
      Step P c (.answered fileId which (P.unpack data))
        (c.setTask thread (some ⟨.get, fileId, todo⟩))
  | miss {c : Tables Thread FileId} {thread : Thread} {fileId : FileId} {which : Piece}
      {todo : List Piece} :
      c.task thread = some ⟨.get, fileId, which :: todo⟩ → fileId ∉ (c.piece which).keys →
      Step P c (.answered fileId which (.error .keyError)) (c.setTask thread none)
  | refuse {c : Tables Thread FileId} {thread : Thread} {fileId : FileId} {which : Piece}
      {todo : List Piece} :
      c.task thread = some ⟨.remove, fileId, which :: todo⟩ → fileId ∉ (c.piece which).keys →
      Step P c .quiet (c.setTask thread none)
  | done {c : Tables Thread FileId} {thread : Thread} {fileId : FileId} :
      c.task thread = some ⟨.get, fileId, []⟩ → Step P c .quiet (c.setTask thread none)

/-! ### The invariant -/

/-- The dictionaries have of the file what its stage says. -/
structure Shows (P : Primitives) (c : Tables Thread FileId) (i : FileId) (stage : Stage Thread)
    (file : File) : Prop where
  piece : ∀ p data, (c.piece p).get? i = some data ↔
    stage.Holds p ∧ data = P.pack (file.piece p)
  entry : ∀ e, c.entries.get? i = some e ↔ stage.Listed ∧ e = file.entry

/-- The file is in the hands of the thread, or of none. -/
inductive Has (P : Primitives) (thread : Thread) (i : FileId) (file : File) :
    Stage Thread → Option (Task FileId) → Prop
  | adding {todo : List Piece} : todo <:+ pieces → Has P thread i file (.adding thread todo)
      (some ⟨.add (fun p => P.pack (file.piece p)) file.entry, i, todo⟩)
  | cutting {todo : List Piece} : todo <:+ [.structural, .metadata] →
      Has P thread i file (.cutting thread todo) (some ⟨.remove, i, todo⟩)
  | live : Has P thread i file .live none
  | gone : Has P thread i file .gone none

/-- The stage of a file says where it is and whose task it is. -/
structure Inv (P : Primitives) (c : Tables Thread FileId) : Prop where
  unborn : ∀ i, c.drawn i = none →
    c.stage i = .unborn ∧ (∀ p, (c.piece p).get? i = none) ∧ c.entries.get? i = none
  shows : ∀ i file, c.drawn i = some file → c.Shows P i (c.stage i) file
  adds : ∀ t packed entry i todo, c.task t = some ⟨.add packed entry, i, todo⟩ →
    c.stage i = .adding t todo
  cuts : ∀ t i todo, c.task t = some ⟨.remove, i, todo⟩ →
    c.stage i = .cutting t todo ∨ (todo = pieces ∧ (c.stage i).Entered)
  hands : ∀ t i todo, (c.stage i).Hands t todo → ∃ file, c.drawn i = some file ∧
    Has P t i file (c.stage i) (c.task t)
  gets : ∀ t i todo, c.task t = some ⟨.get, i, todo⟩ → (c.stage i).Entered

variable {P : Primitives} {c c' : Tables Thread FileId}

section Hands

omit [DecidableEq Thread]

theorem inv_new : Inv P (new : Tables Thread FileId) where
  unborn _ _ := ⟨rfl, fun _ => rfl, rfl⟩
  shows _ _ h := nomatch h
  adds _ _ _ _ _ h := nomatch h
  cuts _ _ _ h := nomatch h
  hands _ _ _ h := h.elim nofun nofun
  gets _ _ _ h := nomatch h

omit [DecidableEq FileId] in
theorem Has.hands {thread t : Thread} {i : FileId} {file : File} {stage : Stage Thread}
    {task : Option (Task FileId)} {todo : List Piece} (h : Has P thread i file stage task)
    (ht : stage.Hands t todo) : t = thread ∧ ∃ call, task = some ⟨call, i, todo⟩ ∧ call ≠ .get := by
  cases h with
  | adding => rcases ht with ht | ht <;> cases ht; exact ⟨rfl, _, rfl, nofun⟩
  | cutting => rcases ht with ht | ht <;> cases ht; exact ⟨rfl, _, rfl, nofun⟩
  | live => rcases ht with ht | ht <;> cases ht
  | gone => rcases ht with ht | ht <;> cases ht

/-- What a thread has in its hands is the file of its task. -/
theorem Inv.task (h : Inv P c) {t : Thread} {i : FileId} {todo : List Piece}
    (ht : (c.stage i).Hands t todo) : ∃ call, c.task t = some ⟨call, i, todo⟩ ∧ call ≠ .get := by
  obtain ⟨file, -, hhas⟩ := h.hands t i todo ht
  exact (hhas.hands ht).2

theorem Inv.idle (h : Inv P c) {t : Thread} (ht : c.task t = none) (i : FileId)
    (todo : List Piece) : ¬ (c.stage i).Hands t todo := by
  intro hi
  obtain ⟨call, hcall, -⟩ := h.task hi
  exact nomatch ht.symm.trans hcall

theorem Inv.others (h : Inv P c) {t : Thread} {call : Call} {i j : FileId} {todo : List Piece}
    (ht : c.task t = some ⟨call, i, todo⟩) (hj : j ≠ i) (todo' : List Piece) :
    ¬ (c.stage j).Hands t todo' := by
  intro hi
  obtain ⟨call', hcall, -⟩ := h.task hi
  exact hj (congrArg Task.fileId (Option.some.inj (hcall.symm.trans ht)))

/-- A thread that reads has no file in its hands. -/
theorem Inv.reading (h : Inv P c) {t : Thread} {i : FileId} {todo : List Piece}
    (ht : c.task t = some ⟨.get, i, todo⟩) (j : FileId) (todo' : List Piece) :
    ¬ (c.stage j).Hands t todo' := by
  intro hj
  obtain ⟨call, hcall, hne⟩ := h.task hj
  exact hne (congrArg Task.call (Option.some.inj (hcall.symm.trans ht)))

theorem Inv.mem_piece (h : Inv P c) (i : FileId) (p : Piece) :
    i ∈ (c.piece p).keys ↔ (c.stage i).Holds p := by
  rw [Dict.mem_keys]
  cases hi : c.drawn i with
  | none =>
    obtain ⟨hunborn, hnone, -⟩ := h.unborn i hi
    rw [hunborn, hnone]
    exact iff_of_false (fun ⟨_, hdata⟩ => nomatch hdata) id
  | some file =>
    refine ⟨fun ⟨data, hdata⟩ => (((h.shows i file hi).piece p data).mp hdata).1, fun hholds => ?_⟩
    exact ⟨_, ((h.shows i file hi).piece p _).mpr ⟨hholds, rfl⟩⟩

theorem Inv.mem_entries (h : Inv P c) (i : FileId) :
    i ∈ c.entries.keys ↔ (c.stage i).Listed := by
  rw [Dict.mem_keys]
  cases hi : c.drawn i with
  | none =>
    obtain ⟨hunborn, -, hnone⟩ := h.unborn i hi
    rw [hunborn, hnone]
    exact iff_of_false (fun ⟨_, hentry⟩ => nomatch hentry) id
  | some file =>
    refine ⟨fun ⟨e, he⟩ => (((h.shows i file hi).entry e).mp he).1, fun hlisted => ?_⟩
    exact ⟨_, ((h.shows i file hi).entry _).mpr ⟨hlisted, rfl⟩⟩

theorem Inv.entered (h : Inv P c) {i : FileId} {entry : Piece × String}
    (hentry : c.entries.get? i = some entry) : (c.stage i).Entered :=
  ((h.mem_entries i).mp (Dict.mem_keys.mpr ⟨entry, hentry⟩)).entered

theorem Inv.drawn (h : Inv P c) {i : FileId} (hi : c.stage i ≠ .unborn) :
    ∃ file, c.drawn i = some file := by
  cases hd : c.drawn i with
  | none => exact absurd (h.unborn i hd).1 hi
  | some file => exact ⟨file, rfl⟩

/-- What is left to do are the last of the boxes. -/
theorem Inv.suffix (h : Inv P c) {t : Thread} {i : FileId} {todo : List Piece} :
    (c.stage i = .adding t todo → todo <:+ pieces) ∧
      (c.stage i = .cutting t todo → todo <:+ [.structural, .metadata]) := by
  constructor
  · intro hi
    obtain ⟨file, -, hhas⟩ := h.hands t i todo (Or.inl hi)
    rw [hi] at hhas
    generalize c.task t = task at hhas
    cases hhas with
    | adding hsuffix => exact hsuffix
  · intro hi
    obtain ⟨file, -, hhas⟩ := h.hands t i todo (Or.inr hi)
    rw [hi] at hhas
    generalize c.task t = task at hhas
    cases hhas with
    | cutting hsuffix => exact hsuffix

/-- When no call is under way, a file is in the table and in all boxes, or in none. -/
theorem Inv.settled (h : Inv P c) (hidle : ∀ t, c.task t = none) (i : FileId) (p : Piece) :
    (c.stage i).Holds p ↔ (c.stage i).Listed := by
  have hfree : ∀ t todo, ¬ (c.stage i).Hands t todo := fun t => h.idle (hidle t) i
  cases hstage : c.stage i with
  | unborn => exact Iff.rfl
  | adding t todo => exact absurd (Or.inl hstage) (hfree t todo)
  | live => exact Iff.rfl
  | cutting t todo => exact absurd (Or.inr hstage) (hfree t todo)
  | gone => exact Iff.rfl

/-- A file in the table that no call of `forget` has in its hands is in all boxes, whatever else
is under way. -/
theorem Inv.holds_of_listed (h : Inv P c) {i : FileId}
    (hforget : ∀ t todo, c.task t ≠ some ⟨.remove, i, todo⟩) (hlisted : (c.stage i).Listed)
    (p : Piece) : (c.stage i).Holds p := by
  cases hstage : c.stage i with
  | unborn => rw [hstage] at hlisted; exact hlisted.elim
  | adding t todo => rw [hstage] at hlisted; exact hlisted.elim
  | live => trivial
  | cutting t todo =>
    obtain ⟨file, -, hhas⟩ := h.hands t i todo (Or.inr hstage)
    rw [hstage] at hhas
    have hno := hforget t
    generalize c.task t = task at hhas hno
    cases hhas with
    | cutting => exact absurd rfl (hno todo)
  | gone => rw [hstage] at hlisted; exact hlisted.elim

/-- Of the calls of `forget` that are under way, the one that finds a piece is the one that has
cut those before, and when there is none it is at the first piece. -/
theorem Inv.cut_stage (h : Inv P c) {t : Thread} {i : FileId} {which : Piece} {todo : List Piece}
    (ht : c.task t = some ⟨.remove, i, which :: todo⟩) (hmem : i ∈ (c.piece which).keys) :
    c.stage i = .cutting t (which :: todo) ∨
      (c.stage i = .live ∧ which :: todo = pieces) := by
  rcases h.cuts t i _ ht with hcutting | ⟨htodo, hentered⟩
  · exact Or.inl hcutting
  obtain ⟨rfl, -⟩ := List.cons.inj htodo
  have hholds := (h.mem_piece i .content).mp hmem
  cases hstage : c.stage i with
  | unborn => rw [hstage] at hentered; exact hentered.elim
  | adding t' todo' => rw [hstage] at hentered; exact hentered.elim
  | live => exact Or.inr ⟨rfl, htodo⟩
  | cutting t' todo' =>
    rw [hstage] at hholds
    exact absurd ((h.suffix.2 hstage).subset hholds) (by decide)
  | gone => rw [hstage] at hholds; exact hholds.elim

/-- What a thread that adds has in its hands. -/
theorem Inv.adding (h : Inv P c) {t : Thread} {i : FileId} {todo : List Piece}
    {packed : Piece → Bytes} {entry : Piece × String}
    (ht : c.task t = some ⟨.add packed entry, i, todo⟩) :
    ∃ file, c.drawn i = some file ∧ c.stage i = .adding t todo ∧ todo <:+ pieces ∧
      packed = (fun p => P.pack (file.piece p)) ∧ entry = file.entry := by
  have hstage := h.adds t packed entry i todo ht
  obtain ⟨file, hfile, hhas⟩ := h.hands t i todo (Or.inl hstage)
  rw [hstage, ht] at hhas
  cases hhas with
  | adding hsuffix => exact ⟨file, hfile, hstage, hsuffix, rfl, rfl⟩

end Hands

/-! ### One step -/

/-- A thread in whose hands no file is takes another task, or none. -/
theorem Inv.setTask (h : Inv P c) {thread : Thread} {task : Option (Task FileId)}
    (hfree : ∀ i todo, ¬ (c.stage i).Hands thread todo)
    (htask : ∀ call i todo, task = some ⟨call, i, todo⟩ → (c.stage i).Entered ∧
      (call = .get ∨ (call = .remove ∧ todo = pieces))) : Inv P (c.setTask thread task) where
  unborn := h.unborn
  shows i file hi := ⟨(h.shows i file hi).piece, (h.shows i file hi).entry⟩
  adds t packed entry i todo ht := by
    rw [task_setTask] at ht
    split at ht
    · obtain ⟨-, hcall | ⟨hcall, -⟩⟩ := htask _ _ _ ht
      · cases hcall
      · cases hcall
    · exact h.adds t packed entry i todo ht
  cuts t i todo ht := by
    rw [task_setTask] at ht
    split at ht
    · obtain ⟨hentered, hcall | ⟨-, htodo⟩⟩ := htask _ _ _ ht
      · cases hcall
      · exact Or.inr ⟨htodo, hentered⟩
    · exact h.cuts t i todo ht
  hands t i todo ht := by
    have hne : t ≠ thread := fun heq => hfree i todo (heq ▸ ht)
    rw [task_setTask, if_neg hne]
    exact h.hands t i todo ht
  gets t i todo ht := by
    rw [task_setTask] at ht
    split at ht
    · exact (htask _ _ _ ht).1
    · exact h.gets t i todo ht

/-- A thread takes a file, that is in its hands or in none, to the next stage. -/
theorem Inv.move (h : Inv P c) {thread : Thread} {i : FileId} {stage : Stage Thread}
    {task : Option (Task FileId)} {file : File}
    (hstage : c'.stage = Function.update c.stage i stage)
    (htask : c'.task = Function.update c.task thread task)
    (hothers : ∀ j ≠ i, (∀ p, (c'.piece p).get? j = (c.piece p).get? j) ∧
      c'.entries.get? j = c.entries.get? j ∧ c'.drawn j = c.drawn j)
    (hthread : ∀ j ≠ i, ∀ todo, ¬ (c.stage j).Hands thread todo)
    (hfree : ∀ t ≠ thread, ∀ todo, ¬ (c.stage i).Hands t todo)
    (hentered : (c.stage i).Entered → stage.Entered) (hdrawn : c'.drawn i = some file)
    (hshows : c'.Shows P i stage file) (hhas : Has P thread i file stage task) : Inv P c' := by
  have hself : c'.stage i = stage := by rw [hstage, Function.update_self]
  have hother : ∀ {j}, j ≠ i → c'.stage j = c.stage j := fun hj => by
    rw [hstage, Function.update_of_ne hj]
  have hmine : c'.task thread = task := by rw [htask, Function.update_self]
  have htheirs : ∀ {t}, t ≠ thread → c'.task t = c.task t := fun ht => by
    rw [htask, Function.update_of_ne ht]
  have hkept : ∀ j, (c.stage j).Entered → (c'.stage j).Entered := by
    intro j hj
    by_cases hji : j = i
    · rw [hji] at hj ⊢
      rw [hself]
      exact hentered hj
    · rwa [hother hji]
  refine ⟨fun j hj => ?_, fun j f hj => ?_, fun t packed entry j todo ht => ?_,
    fun t j todo ht => ?_, fun t j todo ht => ?_, fun t j todo ht => ?_⟩
  · by_cases hji : j = i
    · rw [hji, hdrawn] at hj
      cases hj
    · obtain ⟨hpiece, hentries, hdrawn'⟩ := hothers j hji
      obtain ⟨hunborn, hpieces, hentry⟩ := h.unborn j (hdrawn' ▸ hj)
      exact ⟨(hother hji).trans hunborn, fun p => (hpiece p).trans (hpieces p),
        hentries.trans hentry⟩
  · by_cases hji : j = i
    · rw [hji] at hj ⊢
      obtain rfl := Option.some.inj (hdrawn.symm.trans hj)
      rwa [hself]
    · obtain ⟨hpiece, hentries, hdrawn'⟩ := hothers j hji
      obtain ⟨hp, he⟩ := h.shows j f (hdrawn' ▸ hj)
      rw [hother hji]
      exact ⟨fun p data => by rw [hpiece, hp], fun e => by rw [hentries, he]⟩
  · by_cases htt : t = thread
    · rw [htt, hmine] at ht
      rw [htt]
      cases hhas with
      | adding => cases ht; exact hself
      | cutting => cases ht
      | live => cases ht
      | gone => cases ht
    · have hadding := h.adds t packed entry j todo (htheirs htt ▸ ht)
      by_cases hji : j = i
      · exact absurd (Or.inl (hji ▸ hadding)) (hfree t htt todo)
      · rw [hother hji, hadding]
  · by_cases htt : t = thread
    · rw [htt, hmine] at ht
      rw [htt]
      cases hhas with
      | adding => cases ht
      | cutting => cases ht; exact Or.inl hself
      | live => cases ht
      | gone => cases ht
    · rcases h.cuts t j todo (htheirs htt ▸ ht) with hcutting | ⟨htodo, hentered'⟩
      · by_cases hji : j = i
        · exact absurd (Or.inr (hji ▸ hcutting)) (hfree t htt todo)
        · exact Or.inl ((hother hji).trans hcutting)
      · exact Or.inr ⟨htodo, hkept j hentered'⟩
  · by_cases hji : j = i
    · subst hji
      rw [hself] at ht
      obtain ⟨rfl, -⟩ := hhas.hands ht
      exact ⟨file, hdrawn, by rwa [hself, hmine]⟩
    · rw [hother hji] at ht
      have htt : t ≠ thread := fun heq => hthread j hji todo (heq ▸ ht)
      obtain ⟨-, -, hdrawn'⟩ := hothers j hji
      rw [hother hji, htheirs htt, hdrawn']
      exact h.hands t j todo ht
  · by_cases htt : t = thread
    · rw [htt, hmine] at ht
      cases hhas <;> cases ht
    · exact hkept j (h.gets t j todo (htheirs htt ▸ ht))

theorem nodup_pieces : pieces.Nodup := by decide

theorem mem_pieces (p : Piece) : p ∈ pieces := by cases p <;> decide

/-- A file whose identifier has been drawn is in the hands of the thread, in no box yet. -/
theorem Inv.hold (h : Inv P c) {thread : Thread} {i : FileId} {file : File}
    (htask : c.task thread = none) (hdrawn : c.drawn i = none) :
    Inv P (({ c with drawn := Function.update c.drawn i (some file) }.setTask thread
      (some ⟨.add (fun p => P.pack (file.piece p)) file.entry, i, pieces⟩)).setStage
        i (.adding thread pieces)) := by
  obtain ⟨hunborn, hpieces, hentry⟩ := h.unborn i hdrawn
  refine h.move rfl rfl (fun j hj => ⟨fun _ => rfl, rfl, Function.update_of_ne hj ..⟩)
    (fun j _ => h.idle htask j) (fun t _ todo ht => ?_) (fun he => ?_) (Function.update_self ..)
    ⟨fun p data => ?_, fun e => ?_⟩ (.adding List.suffix_rfl)
  · rw [hunborn] at ht
    rcases ht with ht | ht <;> cases ht
  · rw [hunborn] at he
    exact he.elim
  · exact iff_of_false (fun hp => Option.some_ne_none _ (hp.symm.trans (hpieces p)))
      fun hp => hp.1 (mem_pieces p)
  · exact iff_of_false (fun he => Option.some_ne_none _ (he.symm.trans hentry))
      fun he => he.1

theorem Inv.add (h : Inv P c) {thread : Thread} {i : FileId} {which : Piece} {todo : List Piece}
    {packed : Piece → Bytes} {entry : Piece × String}
    (htask : c.task thread = some ⟨.add packed entry, i, which :: todo⟩) :
    Inv P (((c.setPiece which ((c.piece which).set i (packed which))).setTask thread
      (some ⟨.add packed entry, i, todo⟩)).setStage i (.adding thread todo)) := by
  obtain ⟨file, hfile, hstage, hsuffix, rfl, rfl⟩ := h.adding htask
  obtain ⟨hpiece, hentry⟩ := h.shows i file hfile
  rw [hstage] at hpiece hentry
  have hwhich : which ∉ todo := (List.nodup_cons.mp (hsuffix.sublist.nodup nodup_pieces)).1
  refine h.move rfl rfl (fun j hj => ⟨fun p => ?_, rfl, rfl⟩) (fun j hj => h.others htask hj)
    (fun t ht todo' hhands => ?_) (fun he => ?_) hfile ⟨fun p data => ?_, hentry⟩
    (.adding ((List.suffix_cons which todo).trans hsuffix))
  · show (Function.update c.piece which _ p).get? j = _
    rw [Function.update_apply]
    split
    · rename_i hp
      rw [hp]
      exact (Dict.get?_set ..).trans (if_neg hj)
    · rfl
  · rw [hstage] at hhands
    rcases hhands with heq | heq
    · exact ht (Stage.adding.inj heq).1.symm
    · cases heq
  · rw [hstage] at he
    exact he.elim
  · show (Function.update c.piece which _ p).get? i = _ ↔ _
    rw [Function.update_apply]
    split
    · rename_i hp
      rw [Dict.get?_set, if_pos rfl, hp]
      exact ⟨fun heq => ⟨hwhich, (Option.some.inj heq).symm⟩, fun heq => congrArg _ heq.2.symm⟩
    · rename_i hp
      rw [hpiece]
      exact and_congr_left' (not_congr (List.mem_cons.trans (or_iff_right hp)))

theorem Inv.save (h : Inv P c) {thread : Thread} {i : FileId} {file : File}
    {packed : Piece → Bytes} {entry : Piece × String}
    (htask : c.task thread = some ⟨.add packed entry, i, []⟩) (hdrawn : c.drawn i = some file) :
    Inv P (({ c with entries := c.entries.set i entry }.setTask thread none).setStage i
      .live) := by
  obtain ⟨file', hfile, hstage, -, rfl, rfl⟩ := h.adding htask
  obtain rfl := Option.some.inj (hdrawn.symm.trans hfile)
  obtain ⟨hpiece, -⟩ := h.shows i file hfile
  rw [hstage] at hpiece
  refine h.move rfl rfl (fun j hj => ⟨fun p => rfl, (Dict.get?_set ..).trans (if_neg hj), rfl⟩)
    (fun j hj => h.others htask hj) (fun t ht todo' hhands => ?_) (fun _ => trivial) hfile
    ⟨fun p data => ?_, fun e => ?_⟩ .live
  · rw [hstage] at hhands
    rcases hhands with heq | heq
    · exact ht (Stage.adding.inj heq).1.symm
    · cases heq
  · exact (hpiece p data).trans (and_congr_left' (iff_of_true List.not_mem_nil trivial))
  · show (c.entries.set i file.entry).get? i = _ ↔ _
    rw [Dict.get?_set, if_pos rfl]
    exact ⟨fun heq => ⟨trivial, (Option.some.inj heq).symm⟩, fun heq => congrArg _ heq.2.symm⟩

theorem Inv.cut (h : Inv P c) {thread : Thread} {i : FileId} {which : Piece} {todo : List Piece}
    (htask : c.task thread = some ⟨.remove, i, which :: todo⟩)
    (hmem : i ∈ (c.piece which).keys) :
    Inv P (((c.setPiece which ((c.piece which).erase i)).setTask thread
      (some ⟨.remove, i, todo⟩)).setStage i (.cutting thread todo)) := by
  have hstage := h.cut_stage htask hmem
  obtain ⟨file, hfile⟩ : ∃ file, c.drawn i = some file :=
    h.drawn (by rcases hstage with heq | ⟨heq, -⟩ <;> rw [heq] <;> intro hu <;> cases hu)
  obtain ⟨hpiece, hentry⟩ := h.shows i file hfile
  have hsuffix : todo <:+ [.structural, .metadata] := by
    rcases hstage with heq | ⟨-, heq⟩
    · exact (List.suffix_cons which todo).trans (h.suffix.2 heq)
    · obtain ⟨-, rfl⟩ := List.cons.inj heq
      exact List.suffix_rfl
  -- before the step the pieces were those that are left, and this one
  have hbefore : ∀ p, (c.stage i).Holds p ↔ p ∈ which :: todo := by
    intro p
    rcases hstage with heq | ⟨heq, hall⟩
    · rw [heq]
      exact Iff.rfl
    · rw [heq, hall]
      exact iff_of_true trivial (mem_pieces p)
  have hwhich : which ∉ todo := by
    rcases hstage with heq | ⟨-, heq⟩
    · have hnodup : [Piece.structural, .metadata].Nodup := by decide
      exact (List.nodup_cons.mp ((h.suffix.2 heq).sublist.nodup hnodup)).1
    · exact (List.nodup_cons.mp (heq ▸ nodup_pieces)).1
  refine h.move rfl rfl (fun j hj => ⟨fun p => ?_, rfl, rfl⟩) (fun j hj => h.others htask hj)
    (fun t ht todo' hhands => ?_) (fun _ => trivial) hfile ⟨fun p data => ?_, fun e => ?_⟩
    (.cutting hsuffix)
  · show (Function.update c.piece which _ p).get? j = _
    rw [Function.update_apply]
    split
    · rename_i hp
      rw [hp]
      exact (Dict.get?_erase ..).trans (if_neg hj)
    · rfl
  · rcases hstage with heq | ⟨heq, -⟩ <;> rw [heq] at hhands <;>
      rcases hhands with hhands | hhands <;> cases hhands
    exact ht rfl
  · show (Function.update c.piece which _ p).get? i = _ ↔ _
    rw [Function.update_apply]
    split
    · rename_i hp
      rw [Dict.get?_erase, if_pos rfl, hp]
      exact iff_of_false (Option.some_ne_none _).symm fun hholds => hwhich hholds.1
    · rename_i hp
      rw [hpiece, hbefore]
      exact and_congr_left' (List.mem_cons.trans (or_iff_right hp))
  · refine (hentry e).trans (and_congr_left' (iff_of_true ?_ trivial))
    rcases hstage with heq | ⟨heq, -⟩ <;> rw [heq] <;> trivial

theorem Inv.forgot (h : Inv P c) {thread : Thread} {i : FileId}
    (htask : c.task thread = some ⟨.remove, i, []⟩) :
    Inv P (({ c with entries := c.entries.erase i }.setTask thread none).setStage i
      .gone) := by
  have hstage := (h.cuts thread i [] htask).resolve_right fun hall =>
    List.cons_ne_nil _ _ hall.1.symm
  obtain ⟨file, hfile⟩ : ∃ file, c.drawn i = some file := h.drawn (by
    rw [hstage]
    intro hu
    cases hu)
  obtain ⟨hpiece, -⟩ := h.shows i file hfile
  rw [hstage] at hpiece
  refine h.move rfl rfl
    (fun j hj => ⟨fun p => rfl, (Dict.get?_erase ..).trans (if_neg hj), rfl⟩)
    (fun j hj => h.others htask hj) (fun t ht todo' hhands => ?_) (fun _ => trivial) hfile
    ⟨fun p data => ?_, fun e => ?_⟩ .gone
  · rw [hstage] at hhands
    rcases hhands with heq | heq
    · cases heq
    · exact ht (Stage.cutting.inj heq).1.symm
  · exact (hpiece p data).trans (and_congr_left' (iff_of_false List.not_mem_nil id))
  · show (c.entries.erase i).get? i = _ ↔ _
    rw [Dict.get?_erase, if_pos rfl]
    exact iff_of_false (Option.some_ne_none _).symm fun hlisted => hlisted.1

/-- The file is not in the hands of the thread: it would be in the box that it is missing
from. -/
theorem Inv.refuse (h : Inv P c) {thread : Thread} {i : FileId} {which : Piece}
    {todo : List Piece} (htask : c.task thread = some ⟨.remove, i, which :: todo⟩)
    (hmem : i ∉ (c.piece which).keys) : Inv P (c.setTask thread none) := by
  refine h.setTask (fun j todo' hj => ?_) fun call j todo' heq => by cases heq
  obtain ⟨call, hcall, -⟩ := h.task hj
  obtain ⟨rfl, rfl, rfl⟩ : call = .remove ∧ j = i ∧ todo' = which :: todo := by
    cases hcall.symm.trans htask
    exact ⟨rfl, rfl, rfl⟩
  refine hmem ((h.mem_piece j which).mpr ?_)
  rcases hj with hj | hj
  · obtain ⟨file, -, hhas⟩ := h.hands thread j _ (Or.inl hj)
    rw [hj, htask] at hhas
    cases hhas
  · rw [hj]
    exact List.mem_cons_self

/-- Every step keeps the invariant. -/
theorem Inv.step {event : Event FileId} (h : Inv P c) (hstep : Step P c event c') : Inv P c' := by
  cases hstep with
  | keep => exact h
  | hold htask hdrawn => exact h.hold htask hdrawn
  | @retrieve thread i entry which htask hentry =>
    refine h.setTask (h.idle htask) fun call j todo heq => ?_
    cases heq
    exact ⟨h.entered hentry, Or.inl rfl⟩
  | @forget thread i entry htask hentry =>
    refine h.setTask (h.idle htask) fun call j todo heq => ?_
    cases heq
    exact ⟨h.entered hentry, Or.inr ⟨rfl, rfl⟩⟩
  | add htask => exact h.add htask
  | save htask hdrawn => exact h.save htask hdrawn
  | cut htask hmem => exact h.cut htask hmem
  | forgot htask => exact h.forgot htask
  | @answer thread i which todo data htask hdata =>
    refine h.setTask (h.reading htask) fun call j todo' heq => ?_
    cases heq
    exact ⟨h.gets thread i _ htask, Or.inl rfl⟩
  | miss htask _ => exact h.setTask (h.reading htask) fun call j todo' heq => by cases heq
  | refuse htask hmem => exact h.refuse htask hmem
  | done htask => exact h.setTask (h.reading htask) fun call j todo' heq => by cases heq

/-! ### Histories -/

/-- What has happened to a file and to the dictionaries. -/
structure Told (P : Primitives) (events : List (Event FileId)) (c : Tables Thread FileId) :
    Prop where
  inv : Inv P c
  marks : ∀ i, events.filterMap (Event.mark i) = (c.stage i).marks
  saved : ∀ i file, Event.saved i file ∈ events → c.drawn i = some file
  piece : ∀ p, c.piece p = stored (events.map (Event.effect p))
  entries : c.entries = stored (events.map Event.tableEffect)

omit [DecidableEq Thread] in
theorem told_new : Told P [] (new : Tables Thread FileId) :=
  ⟨inv_new, fun _ => rfl, nofun, fun _ => rfl, rfl⟩

omit [DecidableEq Thread] [DecidableEq FileId] in
theorem filter_notMem {pre todo : List Piece} (h : (pre ++ todo).Nodup) :
    (pre ++ todo).filter (· ∉ todo) = pre := by
  rw [List.filter_append, List.filter_eq_self.mpr, List.filter_eq_nil_iff.mpr, List.append_nil]
  · exact fun p hp => by simpa using hp
  · exact fun p hp => decide_eq_true fun hp' => (List.disjoint_of_nodup_append h) hp hp'

/-- One box more has been passed. -/
theorem filter_pieces {which : Piece} {todo : List Piece} (h : which :: todo <:+ pieces) :
    pieces.filter (· ∉ todo) = pieces.filter (· ∉ which :: todo) ++ [which] := by
  obtain ⟨pre, hpre⟩ := h
  have hnodup := nodup_pieces
  rw [← hpre] at hnodup ⊢
  rw [filter_notMem hnodup]
  have hsplit : pre ++ which :: todo = (pre ++ [which]) ++ todo := List.append_cons ..
  rw [hsplit] at hnodup ⊢
  exact filter_notMem hnodup

/-- The stages go on with the marks. -/
theorem Inv.marks {event : Event FileId} (h : Inv P c) (hstep : Step P c event c') (i : FileId) :
    (c'.stage i).marks = (c.stage i).marks ++ (event.mark i).toList := by
  cases hstep with
  | @hold thread j file htask hdrawn =>
    show (Function.update c.stage j _ i).marks = _ ++ []
    rw [Function.update_apply, List.append_nil]
    split
    · rename_i hij
      rw [hij, (h.unborn j hdrawn).1]
      rfl
    · rfl
  | @add thread j which todo packed entry htask =>
    obtain ⟨file, -, hstage, hsuffix, -, -⟩ := h.adding htask
    show (Function.update c.stage j _ i).marks = _ ++ (if j = i then _ else _ : Option Mark).toList
    rw [Function.update_apply]
    split
    · rename_i hij
      rw [if_pos hij.symm, hij, hstage, Stage.marks, filter_pieces hsuffix, List.map_append]
      rfl
    · rename_i hij
      rw [if_neg (Ne.symm hij)]
      exact (List.append_nil _).symm
  | @save thread j file packed entry htask hdrawn =>
    obtain ⟨file', -, hstage, -, -, -⟩ := h.adding htask
    show (Function.update c.stage j _ i).marks = _ ++ (if j = i then _ else _ : Option Mark).toList
    rw [Function.update_apply]
    split
    · rename_i hij
      rw [if_pos hij.symm, hij, hstage]
      rfl
    · rename_i hij
      rw [if_neg (Ne.symm hij)]
      exact (List.append_nil _).symm
  | @cut thread j which todo htask hmem =>
    have hstage : (c.stage j).marks = (Stage.cutting thread (which :: todo)).marks ∧
        which :: todo <:+ pieces := by
      rcases h.cut_stage htask hmem with heq | ⟨heq, hall⟩
      · exact ⟨by rw [heq], (h.suffix.2 heq).trans (List.suffix_cons ..)⟩
      · exact ⟨by rw [heq, hall]; rfl, hall ▸ List.suffix_rfl⟩
    show (Function.update c.stage j _ i).marks = _ ++ (if j = i then _ else _ : Option Mark).toList
    rw [Function.update_apply]
    split
    · rename_i hij
      rw [if_pos hij.symm, hij, hstage.1, Stage.marks, filter_pieces hstage.2, List.map_append,
        Stage.marks, List.append_assoc, List.cons_append]
      rfl
    · rename_i hij
      rw [if_neg (Ne.symm hij)]
      exact (List.append_nil _).symm
  | @forgot thread j htask =>
    have hstage := (h.cuts thread j [] htask).resolve_right fun hall => nomatch hall.1
    show (Function.update c.stage j _ i).marks = _ ++ (if j = i then _ else _ : Option Mark).toList
    rw [Function.update_apply]
    split
    · rename_i hij
      rw [if_pos hij.symm, hij, hstage]
      rfl
    · rename_i hij
      rw [if_neg (Ne.symm hij)]
      exact (List.append_nil _).symm
  | keep | retrieve | forget | answer | miss | refuse | done => exact (List.append_nil _).symm

/-- The dictionaries go on with the effects. -/
theorem Step.effect {event : Event FileId} (hstep : Step P c event c') (h : Inv P c) :
    (∀ p, c'.piece p = (event.effect p).apply (c.piece p)) ∧
      c'.entries = event.tableEffect.apply c.entries := by
  cases hstep with
  | @add thread i which todo packed entry htask =>
    refine ⟨fun p => ?_, rfl⟩
    show Function.update c.piece which _ p = (if which = p then _ else _ : Effect ..).apply _
    rw [Function.update_apply]
    split
    · rename_i hp
      rw [if_pos hp.symm, hp]
      rfl
    · rename_i hp
      rw [if_neg (Ne.symm hp)]
      rfl
  | @cut thread i which todo htask hmem =>
    refine ⟨fun p => ?_, rfl⟩
    show Function.update c.piece which _ p = (if which = p then _ else _ : Effect ..).apply _
    rw [Function.update_apply]
    split
    · rename_i hp
      rw [if_pos hp.symm, hp]
      rfl
    · rename_i hp
      rw [if_neg (Ne.symm hp)]
      rfl
  | @save thread i file packed entry htask hdrawn =>
    obtain ⟨file', hfile, -, -, -, rfl⟩ := h.adding htask
    obtain rfl := Option.some.inj (hdrawn.symm.trans hfile)
    exact ⟨fun _ => rfl, rfl⟩
  | keep | hold | retrieve | forget | forgot | answer | miss | refuse | done =>
    exact ⟨fun _ => rfl, rfl⟩

/-- What an id was drawn for stays. -/
theorem Step.drawn {event : Event FileId} (hstep : Step P c event c') {i : FileId} {file : File}
    (h : c.drawn i = some file) : c'.drawn i = some file := by
  cases hstep with
  | @hold thread j file' htask hdrawn =>
    have hij : i ≠ j := by
      rintro rfl
      exact nomatch hdrawn.symm.trans h
    exact (Function.update_of_ne hij ..).trans h
  | keep | retrieve | forget | add | save | cut | forgot | answer | miss | refuse | done => exact h

theorem Told.step {events : List (Event FileId)} {event : Event FileId} (h : Told P events c)
    (hstep : Step P c event c') : Told P (events ++ [event]) c' where
  inv := h.inv.step hstep
  marks i := by
    rw [List.filterMap_append, h.marks, h.inv.marks hstep]
    cases hmark : event.mark i <;> simp [hmark]
  saved i file hsaved := by
    rcases List.mem_append.mp hsaved with hbefore | hlast
    · exact hstep.drawn (h.saved i file hbefore)
    · obtain rfl := List.mem_singleton.mp hlast
      cases hstep with
      | save _ hdrawn => exact hdrawn
  piece p := by
    rw [List.map_append, List.map_singleton, KeyedStore.stored_concat, ← h.piece]
    exact (hstep.effect h.inv).1 p
  entries := by
    rw [List.map_append, List.map_singleton, KeyedStore.stored_concat, ← h.entries]
    exact (hstep.effect h.inv).2

/-- **Histories.**  In every run the dictionaries are what the events make them, and the stage of
each file is as far as its marks have got. -/
theorem told {events : List (Event FileId)} (hrun : Run (Step P) new events c) :
    Told P events c :=
  hrun.history told_new Told.step

end Tables

end PackedFiles
