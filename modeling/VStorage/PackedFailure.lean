/-
`packed_system.py` and `packed_box.py`: calls that find their name gone.

`get`, `remove` and `add` set the flag that pauses a box, work under the lock of the box and
clear the flag; `retrieve` and `forget` look into the table of the storage and then call the
shared boxes, with no lock over both.  So a name can be gone when `get` or `remove` has the
lock.  The exception then leaves through the lock, and the flag stays set.

* `keyError_quiet`: such a call raises `KeyError`, and changes nothing but the flag.
* `guarded_iff`: no call of a run raises exactly when each finds its name when it has the lock.
* `falls_on`: in such a run a box is paused only while a call on it is in progress; a call that
  misses its name next, alone on a paused box, leaves it paused for good.
* `retrieve_stuck`: a run that comes to this.
-/
import Mathlib
import VStorage.PackedBox
import VStorage.VirtualStorage

namespace PackedFailure

/-! ### Calls and threads -/

/-- A call of a shared box; `_hold` adds a piece to each, and then enters the file. -/
inductive Call
  | get
  | remove
  | add (pieces : Piece → Bytes) (entry : Piece × String)

/-- Where a thread is: between calls (with what is left to do), between setting the flag of a
box and having its lock, and between giving back the lock and clearing the flag.  `before` is
what the flag was when the thread set it; nothing reads it. -/
inductive Pc (FileId : Type*)
  | idle
  | entering (call : Call) (fileId : FileId) (todo : List Piece)
  | waiting (call : Call) (fileId : FileId) (which : Piece) (todo : List Piece) (before : Bool)
  | leaving (call : Call) (fileId : FileId) (which : Piece) (todo : List Piece)

def Pc.isIdle {FileId : Type*} : Pc FileId → Bool
  | .idle => true
  | _ => false

/-- `PackedVirtualStorage`, and where the threads are.  The thread of a box has looked when it
has found the flag clear and not yet made the hop. -/
structure System (Thread FileId : Type*) where
  box : Piece → PackedFallingBox FileId
  looked : Piece → Bool
  entries : Dict FileId (Piece × String)
  pc : Thread → Pc FileId

/-- What a thread or the thread of a box does next. -/
inductive Action (Thread FileId : Type*)
  | look (which : Piece)
  | hop (which : Piece)
  | retrieve (thread : Thread) (fileId : FileId) (which : Option Piece)
  | forget (thread : Thread) (fileId : FileId)
  | hold (thread : Thread) (fileId : FileId) (pieces : Piece → Bytes) (entry : Piece × String)
  | advance (thread : Thread)

/-- A call has raised: what, and the flag of the box before and after the call. -/
structure Failure where
  error : PyError
  before : Bool
  after : Bool

/-- The call has not left the flag set. -/
def Failure.Restores (failure : Failure) : Prop := failure.after = true → failure.before = true

section Calls

variable {FileId : Type*} [DecidableEq FileId]

/-- What a call does under the lock. -/
def Call.body (call : Call) (fileId : FileId) (which : Piece) (box : PackedFallingBox FileId) :
    Except PyError (PackedFallingBox FileId) :=
  match call with
  | .get => (box.get fileId).2.map fun _ => { (box.get fileId).1 with paused := box.paused }
  | .remove =>
    (box.remove fileId).2.map fun _ => { (box.remove fileId).1 with paused := box.paused }
  | .add pieces _ => .ok { box.add fileId (pieces which) with paused := box.paused }

/-- The call needs the name and finds it, or puts it there. -/
def Call.Finds (call : Call) (fileId : FileId) (box : PackedFallingBox FileId) : Prop :=
  match call with
  | .get | .remove => fileId ∈ box.index.keys
  | .add _ _ => True

theorem Call.body_finds {call : Call} {fileId : FileId} {box : PackedFallingBox FileId}
    (h : call.Finds fileId box) (which : Piece) :
    ∃ box', call.body fileId which box = .ok box' ∧ box'.paused = box.paused := by
  cases call with
  | get =>
    obtain ⟨item, hitem⟩ := Dict.mem_keys.mp h
    rw [Call.body, PackedFallingBox.get, hitem]
    exact ⟨_, rfl, rfl⟩
  | remove =>
    obtain ⟨item, hitem⟩ := Dict.mem_keys.mp h
    rw [Call.body, PackedFallingBox.remove, hitem]
    exact ⟨_, rfl, rfl⟩
  | add => exact ⟨_, rfl, rfl⟩

theorem Call.body_misses {call : Call} {fileId : FileId} {box : PackedFallingBox FileId}
    (h : ¬ call.Finds fileId box) (which : Piece) :
    call.body fileId which box = .error .keyError := by
  cases call with
  | get => rw [Call.body, PackedFallingBox.get, Dict.get?_eq_none.mpr h]; rfl
  | remove => rw [Call.body, PackedFallingBox.remove, Dict.get?_eq_none.mpr h]; rfl
  | add => exact absurd trivial h

/-- A call that nothing comes between: the flag set, the body, and the flag cleared. -/
def Call.alone (call : Call) (fileId : FileId) (which : Piece) (box : PackedFallingBox FileId) :
    PackedFallingBox FileId :=
  match call.body fileId which { box with paused := true } with
  | .ok box => { box with paused := false }
  | .error _ => { box with paused := true }

/-- The operations of the box are such calls. -/
theorem Call.alone_eq (call : Call) (fileId : FileId) (which : Piece)
    (box : PackedFallingBox FileId) :
    call.alone fileId which box = match call with
      | .get => (box.get fileId).1
      | .remove => (box.remove fileId).1
      | .add pieces _ => box.add fileId (pieces which) := by
  cases call with
  | get =>
    rw [Call.alone, Call.body, PackedFallingBox.get, PackedFallingBox.get]
    cases box.index.get? fileId with
    | none => rfl
    | some item => rfl
  | remove =>
    rw [Call.alone, Call.body, PackedFallingBox.remove, PackedFallingBox.remove]
    cases box.index.get? fileId with
    | none => rfl
    | some item => rfl
  | add pieces entry =>
    simp only [Call.alone, Call.body]
    unfold PackedFallingBox.add PackedFallingBox.activeBox
    cases box.active with
    | a => rfl
    | b => rfl

end Calls

namespace System

variable {Thread FileId : Type*} [DecidableEq Thread] [DecidableEq FileId]

/-- An empty storage that no thread uses. -/
def new : System Thread FileId where
  box _ := .new
  looked _ := false
  entries := .empty
  pc _ := .idle

/-- The boxes that `forget` and `_hold` go through. -/
def pieces : List Piece := [.content, .structural, .metadata]

def setBox (s : System Thread FileId) (which : Piece) (box : PackedFallingBox FileId) :
    System Thread FileId :=
  { s with box := Function.update s.box which box }

def goto (s : System Thread FileId) (thread : Thread) (pc : Pc FileId) : System Thread FileId :=
  { s with pc := Function.update s.pc thread pc }

/-- The last line of `forget` and of `_hold`.  (When the file has gone from the table in the
meantime `del` raises, and nothing changes either.) -/
def finish (call : Call) (fileId : FileId) (entries : Dict FileId (Piece × String)) :
    Dict FileId (Piece × String) :=
  match call with
  | .get => entries
  | .remove => entries.erase fileId
  | .add _ entry => entries.set fileId entry

/-- The next step of a thread that is in a call. -/
def advance (s : System Thread FileId) (thread : Thread) : System Thread FileId × Option Failure :=
  match s.pc thread with
  | .idle => (s, none)
  | .entering call fileId [] =>
    ({ s with entries := finish call fileId s.entries }.goto thread .idle, none)
  | .entering call fileId (which :: todo) =>
    ((s.setBox which { s.box which with paused := true }).goto thread
      (.waiting call fileId which todo (s.box which).paused), none)
  | .waiting call fileId which todo before =>
    match call.body fileId which (s.box which) with
    | .ok box => ((s.setBox which box).goto thread (.leaving call fileId which todo), none)
    | .error error => (s.goto thread .idle, some ⟨error, before, (s.box which).paused⟩)
  | .leaving call fileId which todo =>
    ((s.setBox which { s.box which with paused := false }).goto thread
      (.entering call fileId todo), none)

/-- One step.  A thread begins a call of the storage when it is in none; when `_meta` does not
have the file, `retrieve` raises and `forget` returns, and nothing has changed. -/
def step (s : System Thread FileId) : Action Thread FileId → System Thread FileId × Option Failure
  | .look which =>
    ({ s with looked := Function.update s.looked which (!(s.box which).paused) }, none)
  | .hop which =>
    if s.looked which then
      ({ s with looked := Function.update s.looked which false }.setBox which (s.box which).fall,
        none)
    else (s, none)
  | .retrieve thread fileId which =>
    match s.pc thread, s.entries.get? fileId with
    | .idle, some (reconstructFrom, _) =>
      (s.goto thread (.entering .get fileId [which.getD reconstructFrom]), none)
    | _, _ => (s, none)
  | .forget thread fileId =>
    match s.pc thread, s.entries.get? fileId with
    | .idle, some _ => (s.goto thread (.entering .remove fileId pieces), none)
    | _, _ => (s, none)
  | .hold thread fileId packed entry =>
    match s.pc thread with
    | .idle => (s.goto thread (.entering (.add packed entry) fileId pieces), none)
    | _ => (s, none)
  | .advance thread => s.advance thread

/-- A step, labelled with what is done and the failure, if there is one. -/
def Step (s : System Thread FileId) (label : Action Thread FileId × Option Failure)
    (s' : System Thread FileId) : Prop :=
  s.step label.1 = (s', label.2)

/-- What is asked of the state before a step: a call that gets the lock finds its name. -/
def FindsName (s : System Thread FileId) (label : Action Thread FileId × Option Failure) : Prop :=
  match label.1 with
  | .advance thread =>
    ∀ call fileId which todo before, s.pc thread = .waiting call fileId which todo before →
      call.Finds fileId (s.box which)
  | _ => True

/-- A call on the box is in progress that has set the flag and has yet to clear it. -/
def InCall (s : System Thread FileId) (which : Piece) : Prop :=
  ∃ thread call fileId todo, s.pc thread = .waiting call fileId which todo false ∨
    s.pc thread = .leaving call fileId which todo

/-! ### One step -/

variable {s s' : System Thread FileId}

/-- A step that fails is the body of a call that misses its name. -/
theorem step_failure {a : Action Thread FileId} {failure : Failure}
    (h : s.step a = (s', some failure)) :
    ∃ thread call fileId which todo before, a = .advance thread ∧
      s.pc thread = .waiting call fileId which todo before ∧ ¬ call.Finds fileId (s.box which) ∧
      failure = ⟨.keyError, before, (s.box which).paused⟩ ∧ s' = s.goto thread .idle := by
  cases a with
  | look which => cases h
  | hop which =>
    rw [step] at h
    split at h <;> cases h
  | retrieve thread fileId which =>
    rw [step] at h
    split at h <;> cases h
  | forget thread fileId =>
    rw [step] at h
    split at h <;> cases h
  | hold thread fileId packed entry =>
    rw [step] at h
    split at h <;> cases h
  | advance thread =>
    rw [step, advance] at h
    split at h
    · cases h
    · cases h
    · cases h
    · rename_i call fileId which todo before hpc
      by_cases hfinds : call.Finds fileId (s.box which)
      · obtain ⟨box, hbody, -⟩ := Call.body_finds hfinds which
        rw [hbody] at h
        cases h
      · rw [Call.body_misses hfinds] at h
        cases h
        exact ⟨thread, call, fileId, which, todo, before, rfl, hpc, hfinds, rfl, rfl⟩
    · cases h

/-- And such a step fails. -/
theorem step_misses {thread : Thread} {call : Call} {fileId : FileId} {which : Piece}
    {todo : List Piece} {before : Bool} (hpc : s.pc thread = .waiting call fileId which todo before)
    (hmiss : ¬ call.Finds fileId (s.box which)) :
    s.step (.advance thread)
      = (s.goto thread .idle, some ⟨.keyError, before, (s.box which).paused⟩) := by
  rw [step, advance, hpc]
  dsimp only
  rw [Call.body_misses hmiss]

/-- A call that fails raises `KeyError`; neither that step nor the one that sets the flag
changes anything else of a box. -/
theorem keyError_quiet {a : Action Thread FileId} {result : Option Failure}
    (h : s.step a = (s', result)) :
    (∀ failure, result = some failure → failure.error = .keyError ∧ s'.box = s.box) ∧
      ∀ thread call fileId todo, a = .advance thread → s.pc thread = .entering call fileId todo →
        ∀ which, { s'.box which with paused := (s.box which).paused } = s.box which := by
  constructor
  · rintro failure rfl
    obtain ⟨thread, call, fileId, which, todo, before, -, -, -, rfl, rfl⟩ := step_failure h
    exact ⟨rfl, rfl⟩
  · rintro thread call fileId todo rfl hpc other
    rw [step, advance, hpc] at h
    cases todo with
    | nil =>
      cases h
      rfl
    | cons which todo =>
      cases h
      show { Function.update s.box which { s.box which with paused := true } other with
        paused := (s.box other).paused } = s.box other
      rw [Function.update_apply]
      split
      · rename_i heq
        rw [heq]
      · rfl

/-- The condition is that the step does not fail. -/
theorem findsName_iff {label : Action Thread FileId × Option Failure} (h : Step s label s') :
    FindsName s label ↔ label.2 = none := by
  obtain ⟨a, result⟩ := label
  constructor
  · intro hfinds
    by_contra hfails
    obtain ⟨failure, rfl⟩ := Option.ne_none_iff_exists'.mp hfails
    obtain ⟨thread, call, fileId, which, todo, before, rfl, hpc, hmiss, -, -⟩ := step_failure h
    exact hmiss (hfinds call fileId which todo before hpc)
  · rintro rfl
    cases a with
    | advance thread =>
      intro call fileId which todo before hpc
      by_contra hmiss
      exact nomatch (Prod.mk.inj (h.symm.trans (step_misses hpc hmiss))).2
    | _ => trivial

/-! ### Boxes are paused by calls in progress -/

section Attended

omit [DecidableEq FileId]

/-- Each paused box has a call that will clear its flag. -/
def Attended (s : System Thread FileId) : Prop :=
  ∀ which, (s.box which).paused = true → s.InCall which

/-- The thread is in a call on the box, and will clear the flag. -/
def Clears (pc : Pc FileId) (which : Piece) : Prop :=
  ∃ call fileId todo, pc = .waiting call fileId which todo false ∨ pc = .leaving call fileId which todo

/-- One thread moves.  For each paused box it is the one in a call now, or it was not before
and the box was paused. -/
theorem Attended.move (h : s.Attended) {thread : Thread} {pc : Pc FileId}
    (hpc : s'.pc = Function.update s.pc thread pc)
    (hall : ∀ which, (s'.box which).paused = true → Clears pc which ∨
      ((s.box which).paused = true ∧ ¬ Clears (s.pc thread) which)) : s'.Attended := by
  intro which hpaused
  rcases hall which hpaused with ⟨call, fileId, todo, hclears⟩ | ⟨hbefore, hnot⟩
  · refine ⟨thread, call, fileId, todo, ?_⟩
    rwa [hpc, Function.update_self]
  · obtain ⟨other, call, fileId, todo, hother⟩ := h which hbefore
    have hne : other ≠ thread := by
      rintro rfl
      exact hnot ⟨call, fileId, todo, hother⟩
    refine ⟨other, call, fileId, todo, ?_⟩
    rwa [hpc, Function.update_of_ne hne]

theorem Attended.goto (h : s.Attended) {thread : Thread} (pc : Pc FileId)
    (hnot : ∀ which, ¬ Clears (s.pc thread) which) : (s.goto thread pc).Attended :=
  h.move rfl fun which hpaused => Or.inr ⟨hpaused, hnot which⟩

/-- A call sets the flag: when it was clear, the call is now the one that will clear it. -/
theorem attended_enter (h : s.Attended) {thread : Thread} {call : Call} {fileId : FileId}
    {which : Piece} {todo : List Piece} (hpc : s.pc thread = .entering call fileId (which :: todo)) :
    ((s.setBox which { s.box which with paused := true }).goto thread
      (.waiting call fileId which todo (s.box which).paused)).Attended := by
  refine h.move rfl fun other hpaused => ?_
  have hnot : ¬ Clears (s.pc thread) other := by simp [hpc, Clears]
  have hpaused' : (Function.update s.box which { s.box which with paused := true } other).paused
      = true := hpaused
  rw [Function.update_apply] at hpaused'
  split at hpaused'
  · rename_i heq
    rw [heq] at hnot ⊢
    cases hbefore : (s.box which).paused with
    | false => exact Or.inl ⟨call, fileId, todo, Or.inl rfl⟩
    | true => exact Or.inr ⟨rfl, hnot⟩
  · exact Or.inr ⟨hpaused', hnot⟩

/-- It has done its work under the lock. -/
theorem attended_body (h : s.Attended) {thread : Thread} {call : Call} {fileId : FileId}
    {which : Piece} {todo : List Piece} {before : Bool} {box : PackedFallingBox FileId}
    (hpc : s.pc thread = .waiting call fileId which todo before) :
    ((s.setBox which box).goto thread (.leaving call fileId which todo)).Attended := by
  refine h.move rfl fun other hpaused => ?_
  have hpaused' : (Function.update s.box which box other).paused = true := hpaused
  rw [Function.update_apply] at hpaused'
  split at hpaused'
  · rename_i heq
    exact Or.inl ⟨call, fileId, todo, Or.inr (by rw [heq])⟩
  · rename_i hother
    refine Or.inr ⟨hpaused', ?_⟩
    rw [hpc]
    rintro ⟨_, _, _, heq | heq⟩
    · cases heq
      exact hother rfl
    · cases heq

/-- It clears the flag. -/
theorem attended_leave (h : s.Attended) {thread : Thread} {call : Call} {fileId : FileId}
    {which : Piece} {todo : List Piece} (hpc : s.pc thread = .leaving call fileId which todo) :
    ((s.setBox which { s.box which with paused := false }).goto thread
      (.entering call fileId todo)).Attended := by
  refine h.move rfl fun other hpaused => ?_
  have hpaused' : (Function.update s.box which { s.box which with paused := false } other).paused
      = true := hpaused
  rw [Function.update_apply] at hpaused'
  split at hpaused'
  · cases hpaused'
  · rename_i hother
    refine Or.inr ⟨hpaused', ?_⟩
    rw [hpc]
    rintro ⟨_, _, _, heq | heq⟩
    · cases heq
    · cases heq
      exact hother rfl

end Attended

theorem attended_advance (h : s.Attended) {thread : Thread} {result : Option Failure}
    (hfinds : s.FindsName (.advance thread, result)) : (s.advance thread).1.Attended := by
  rw [advance]
  cases hpc : s.pc thread with
  | idle => exact h
  | entering call fileId todo =>
    cases todo with
    | nil => exact h.move rfl fun which hpaused => Or.inr ⟨hpaused, by simp [hpc, Clears]⟩
    | cons which todo => exact attended_enter h hpc
  | waiting call fileId which todo before =>
    obtain ⟨box, hbody, -⟩ :=
      Call.body_finds (hfinds call fileId which todo before hpc) which
    dsimp only
    rw [hbody]
    exact attended_body h hpc
  | leaving call fileId which todo => exact attended_leave h hpc

/-- One step of a run that meets the condition. -/
theorem attended_step {label : Action Thread FileId × Option Failure} (h : s.Attended)
    (hstep : Step s label s') (hfinds : s.FindsName label) : s'.Attended := by
  obtain ⟨a, result⟩ := label
  obtain rfl : (s.step a).1 = s' := (Prod.mk.inj hstep).1
  have hidle : ∀ {thread}, s.pc thread = .idle → ∀ which, ¬ Clears (s.pc thread) which := by
    intro thread hpc which
    simp [hpc, Clears]
  cases a with
  | look which => exact h
  | hop which =>
    rw [step]
    split
    · intro other hpaused
      have hpaused' : (Function.update s.box which (s.box which).fall other).paused = true := hpaused
      refine h other ?_
      rw [Function.update_apply] at hpaused'
      split at hpaused'
      · rename_i heq
        rw [heq, ← PackedFallingBox.paused_fall, hpaused']
      · exact hpaused'
    · exact h
  | retrieve thread fileId which =>
    rw [step]
    split
    · rename_i hpc _
      exact h.goto _ (hidle hpc)
    · exact h
  | forget thread fileId =>
    rw [step]
    split
    · rename_i hpc _
      exact h.goto _ (hidle hpc)
    · exact h
  | hold thread fileId packed entry =>
    rw [step]
    split
    · rename_i hpc
      exact h.goto _ (hidle hpc)
    · exact h
  | advance thread => exact attended_advance h hfinds

/-! ### Runs -/

/-- What a list of steps does, and its labels. -/
def final (s : System Thread FileId) (actions : List (Action Thread FileId)) :
    System Thread FileId :=
  actions.foldl (fun s a => (s.step a).1) s

def trace : System Thread FileId → List (Action Thread FileId) →
    List (Action Thread FileId × Option Failure)
  | _, [] => []
  | s, a :: actions => (a, (s.step a).2) :: trace (s.step a).1 actions

theorem step_self (s : System Thread FileId) (a : Action Thread FileId) :
    Step s (a, (s.step a).2) (s.step a).1 := rfl

theorem run_trace (s : System Thread FileId) (actions : List (Action Thread FileId)) :
    Run Step s (trace s actions) (final s actions) := by
  induction actions generalizing s with
  | nil => exact .nil
  | cons a actions ih => exact (Run.single (s.step_self a)).trans (ih _)

variable {labels : List (Action Thread FileId × Option Failure)}

/-- **No call raises** in exactly the runs in which every call finds its name. -/
theorem guarded_iff : Run (Guarded Step FindsName) s labels s' ↔
    Run Step s labels s' ∧ ∀ label ∈ labels, label.2 = none := by
  constructor
  · intro hrun
    induction hrun with
    | nil => exact ⟨.nil, List.forall_mem_nil _⟩
    | snoc _ hstep ih =>
      refine ⟨ih.1.snoc hstep.1, List.forall_mem_append.mpr ⟨ih.2, ?_⟩⟩
      exact List.forall_mem_singleton.mpr ((findsName_iff hstep.1).mp hstep.2)
  · rintro ⟨hrun, hall⟩
    induction hrun with
    | nil => exact .nil
    | snoc _ hstep ih =>
      obtain ⟨hbefore, hlast⟩ := List.forall_mem_append.mp hall
      refine (ih hbefore).snoc ⟨hstep, (findsName_iff hstep).mpr ?_⟩
      exact hlast _ (List.mem_singleton_self _)

theorem attended_run (hrun : Run (Guarded Step FindsName) new labels s) : s.Attended :=
  hrun.invariant (I := Attended) (fun which hpaused => by cases hpaused)
    fun h hstep => attended_step h hstep.1 hstep.2

/-- The thread has set the flag of the box, and has yet to clear it or to fail. -/
def On (s : System Thread FileId) (which : Piece) (thread : Thread) : Prop :=
  ∃ call fileId todo, (∃ before, s.pc thread = .waiting call fileId which todo before) ∨
    s.pc thread = .leaving call fileId which todo

omit [DecidableEq Thread] [DecidableEq FileId] in
/-- Alone on a box that is paused, a call has set the flag itself. -/
theorem Attended.before_eq (h : s.Attended) {thread : Thread} {call : Call} {fileId : FileId}
    {which : Piece} {todo : List Piece} {before : Bool}
    (hpc : s.pc thread = .waiting call fileId which todo before)
    (halone : ∀ other, s.On which other → other = thread)
    (hpaused : (s.box which).paused = true) : before = false := by
  obtain ⟨other, call', fileId', todo', hother⟩ := h which hpaused
  obtain rfl : other = thread :=
    halone other ⟨call', fileId', todo', hother.imp_left fun hwaiting => ⟨false, hwaiting⟩⟩
  rw [hpc] at hother
  rcases hother with heq | heq
  · cases heq
    rfl
  · cases heq

omit [DecidableEq FileId] in
/-- The flag that it has left is nobody's to clear. -/
theorem not_inCall_of_alone {thread : Thread} {which : Piece}
    (halone : ∀ other, s.On which other → other = thread) :
    ¬ (s.goto thread .idle).InCall which := by
  rintro ⟨other, call, fileId, todo, hother⟩
  change Function.update s.pc thread .idle other = _ ∨ Function.update s.pc thread .idle other = _
    at hother
  by_cases heq : other = thread
  · rw [heq, Function.update_self] at hother
    rcases hother with heq | heq <;> cases heq
  · rw [Function.update_of_ne heq] at hother
    exact heq (halone other ⟨call, fileId, todo, hother.imp_left fun hwaiting => ⟨false, hwaiting⟩⟩)

/-- **Calls that find their names.**  In every run from an empty storage in which each call that
gets the lock of a box finds its name there, no call raises, and a box is paused only while a
call on it is in progress, so that it falls on for every other file.  A call that raises after
such a run raises `KeyError` and leaves buffers and index alone; and when no other call is on
the box, it leaves the flag set that it found clear, and nobody is there to clear it. -/
theorem falls_on {labels : List (Action Thread FileId × Option Failure)}
    {s : System Thread FileId} (hrun : Run (Guarded Step FindsName) new labels s) :
    (∀ label ∈ labels, label.2 = none) ∧
    (∀ which, (s.box which).paused = true → s.InCall which) ∧
    ∀ thread failure s', Step s (.advance thread, some failure) s' →
      failure.error = .keyError ∧ s'.box = s.box ∧
      ∃ call fileId which todo before, s.pc thread = .waiting call fileId which todo before ∧
        fileId ∉ (s.box which).index.keys ∧
        ((∀ other, s.On which other → other = thread) → (s.box which).paused = true →
          ¬ failure.Restores ∧ (s'.box which).paused = true ∧ ¬ s'.InCall which) := by
  have hattended := attended_run hrun
  refine ⟨(guarded_iff.mp hrun).2, hattended, fun thread failure s' hstep => ?_⟩
  obtain ⟨other, call, fileId, which, todo, before, heq, hpc, hmiss, rfl, rfl⟩ :=
    step_failure hstep
  cases heq
  refine ⟨rfl, rfl, call, fileId, which, todo, before, hpc, hmiss.imp ?_,
    fun halone hpaused => ?_⟩
  · intro hmem
    cases call with
    | get => exact hmem
    | remove => exact hmem
    | add => trivial
  · obtain rfl := hattended.before_eq hpc halone hpaused
    exact ⟨fun hrestores => Bool.false_ne_true (hrestores hpaused), hpaused,
      not_inCall_of_alone halone⟩

/-- A file is saved; one thread looks it up for `retrieve`, another forgets it, and each box is
asked before the file is removed from it. -/
def abreast : List (Action ℕ ℕ) :=
  [Action.hold 0 5 (fun _ => [7]) (.content, "a")] ++ List.replicate 10 (Action.advance 0)
    ++ [Action.retrieve 1 5 none, Action.forget 2 5, Action.advance 1, Action.advance 2,
      Action.advance 1, Action.advance 1, Action.advance 2, Action.look .content]

/-- The box is paused only by the thread that forgets the file. -/
theorem falls_on_abreast :
    (∀ label ∈ trace new abreast, label.2 = none) ∧
    ∀ which, ((final new abreast).box which).paused = true →
      (final new abreast).InCall which := by
  have hnone : ∀ label ∈ trace new abreast, label.2.isNone = true := by decide +kernel
  have hrun : Run (Guarded Step FindsName) new (trace new abreast) (final new abreast) :=
    guarded_iff.mpr ⟨run_trace _ _, fun label hlabel => Option.isNone_iff_eq_none.mp
      (hnone label hlabel)⟩
  obtain ⟨hcalls, hpaused, -⟩ := falls_on hrun
  exact ⟨hcalls, hpaused⟩

/-! ### A box that stays paused -/

/-- A file is saved; one thread looks it up for `retrieve` and another forgets it. -/
def overtaken : List (Action ℕ ℕ) :=
  [Action.hold 0 5 (fun _ => [7]) (.content, "a")] ++ List.replicate 10 (Action.advance 0)
    ++ [Action.retrieve 1 5 none, Action.forget 2 5] ++ List.replicate 10 (Action.advance 2)
    ++ [Action.advance 1]

/-- Now `get` raises, and the box of the contents is paused with no call in progress. -/
theorem retrieve_stuck :
    ¬ (∀ (labels : List (Action ℕ ℕ × Option Failure)) (s : System ℕ ℕ), Run Step new labels s →
        ∀ label ∈ labels, ∀ failure, label.2 = some failure → failure.Restores) ∧
      let stuck := ((final new overtaken).step (.advance 1)).1
      (stuck.box .content).paused = true ∧ ∀ thread < 3, (stuck.pc thread).isIdle = true := by
  refine ⟨fun hall => ?_, by decide +kernel, by decide +kernel⟩
  have hflags : ((final new overtaken).step (.advance 1)).2.map
      (fun failure => (failure.before, failure.after)) = some (false, true) := by decide +kernel
  obtain ⟨failure, hfailure, hbefore⟩ := Option.map_eq_some_iff.mp hflags
  have hrun := (run_trace new overtaken).snoc (step_self _ (.advance 1))
  have hrestores := hall _ _ hrun _ (List.mem_append_right _ (List.mem_singleton_self _)) failure
    hfailure
  obtain ⟨hclear, hset⟩ := Prod.mk.inj hbefore
  exact Bool.false_ne_true (hclear.symm.trans (hrestores hset))

end System

end PackedFailure
