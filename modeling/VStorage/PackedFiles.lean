/-
`packed_system.py`: the storage, with any number of calls at once.

Any number of threads save, retrieve and forget files while the three shared boxes make hops.
Step by step, flags and all, the storage does what the dictionaries do (`Matches.step`), so that
every run of the one is a run of the other.

* `answered_eq`: a retrieval is answered with the piece that was saved, or with `KeyError` once
  the piece has been cut.
* `lifecycle_prefix`: what happens to a file happens once and in order, and a call of `forget`
  that has cut one piece finds the others.
* `packed_eq`: the boxes hold the pieces that have been added and not cut, back to back in the
  order of adding, and when no call is under way those of the files in the table.
-/
import Mathlib
import VStorage.FileSaves
import VStorage.PackedTables

namespace PackedFiles

open KeyedStore (Effect stored)
open PackedFailure (Call Pc System Action)
open PackedFailure.System (pieces)
open PackedFallingBox (Packed exists_split)

/-! ### The storage -/

/-- The storage, and what the ids were drawn for; nothing reads that. -/
structure State (Thread FileId : Type*) where
  system : System Thread FileId
  drawn : FileId → Option File

def start {Thread FileId : Type*} : State Thread FileId := ⟨.new, fun _ => none⟩

section Steps

variable {Thread FileId : Type*} [DecidableEq Thread] [DecidableEq FileId] (P : Primitives)

/-- What an action shows; what is read out of a box is decompressed. -/
def State.event (s : State Thread FileId) : Action Thread FileId → Event FileId
  | .advance thread =>
    match s.system.pc thread with
    | .entering (.add _ _) fileId [] =>
      match s.drawn fileId with
      | some file => .saved fileId file
      | none => .quiet
    | .entering .remove fileId [] => .forgotten fileId
    | .waiting (.add packed _) fileId which _ _ => .added fileId which (packed which)
    | .waiting .remove fileId which _ _ =>
      if fileId ∈ (s.system.box which).index.keys then .cut fileId which else .quiet
    | .waiting .get fileId which _ _ =>
      .answered fileId which (do P.unpack (← ((s.system.box which).get fileId).2))
    | _ => .quiet
  | _ => .quiet

def State.act (s : State Thread FileId) (a : Action Thread FileId) : State Thread FileId :=
  { s with system := (s.system.step a).1 }

/-- One step.  The pieces of a file are compressed as they are, and `uuid4` draws an id once. -/
inductive Step : State Thread FileId → Event FileId → State Thread FileId → Prop
  | hold {s : State Thread FileId} {thread : Thread} {fileId : FileId} {file : File} :
      s.system.pc thread = .idle → s.drawn fileId = none →
      Step s .quiet ({ s with drawn := Function.update s.drawn fileId (some file) }.act
        (.hold thread fileId (fun p => P.pack (file.piece p)) file.entry))
  | act {s : State Thread FileId} {a : Action Thread FileId} :
      (∀ thread fileId packed entry, a ≠ .hold thread fileId packed entry) →
      Step s (s.event P a) (s.act a)

end Steps

/-! ### Refinement -/

/-- The task of a thread. -/
def task {FileId : Type*} : Pc FileId → Option (Task FileId)
  | .idle => none
  | .entering call fileId todo => some ⟨call, fileId, todo⟩
  | .waiting call fileId which todo _ => some ⟨call, fileId, which :: todo⟩
  | .leaving call fileId _ todo => some ⟨call, fileId, todo⟩

variable {Thread FileId : Type*} [DecidableEq Thread] [DecidableEq FileId] {P : Primitives}

/-- The shared boxes hold the dictionaries. -/
structure Matches (s : State Thread FileId) (c : Tables Thread FileId) : Prop where
  box : ∀ p, Packed (c.piece p).items (s.system.box p)
  entries : s.system.entries = c.entries
  task : ∀ t, task (s.system.pc t) = c.task t
  drawn : s.drawn = c.drawn

omit [DecidableEq Thread] [DecidableEq FileId] in
theorem matches_new : Matches (start : State Thread FileId) .new :=
  ⟨fun _ => PackedFallingBox.packed_new, rfl, fun _ => rfl, rfl⟩

section Updates

omit [DecidableEq FileId]

variable {pcs : Thread → Pc FileId} {tasks : Thread → Option (Task FileId)}

theorem task_update (h : ∀ t, task (pcs t) = tasks t) {thread : Thread} {pc : Pc FileId}
    {tk : Option (Task FileId)} (hpc : task pc = tk) (t : Thread) :
    task (Function.update pcs thread pc t) = Function.update tasks thread tk t := by
  rw [Function.update_apply, Function.update_apply]
  split
  · exact hpc
  · exact h t

theorem task_stay (h : ∀ t, task (pcs t) = tasks t) {thread : Thread} {pc : Pc FileId}
    (hpc : task pc = task (pcs thread)) (t : Thread) :
    task (Function.update pcs thread pc t) = tasks t := by
  rw [Function.update_apply]
  split
  · rename_i ht
    rw [hpc, ht, h thread]
  · exact h t

variable {boxes : Piece → PackedFallingBox FileId} {d : Piece → Dict FileId Bytes}

omit [DecidableEq Thread]

theorem box_update (h : ∀ p, Packed (d p).items (boxes p)) {which : Piece}
    {box : PackedFallingBox FileId} {d' : Dict FileId Bytes} (hbox : Packed d'.items box)
    (p : Piece) :
    Packed (Function.update d which d' p).items (Function.update boxes which box p) := by
  rw [Function.update_apply, Function.update_apply]
  split
  · exact hbox
  · exact h p

theorem box_stay (h : ∀ p, Packed (d p).items (boxes p)) {which : Piece}
    {box : PackedFallingBox FileId} (hbox : Packed (d which).items box) (p : Piece) :
    Packed (d p).items (Function.update boxes which box p) := by
  rw [Function.update_apply]
  split
  · rename_i hp
    rwa [hp]
  · exact h p

end Updates

section Bodies

omit [DecidableEq Thread]

variable {d : Dict FileId Bytes} {box : PackedFallingBox FileId} {fileId : FileId}

theorem packed_set (h : Packed d.items box) (hnew : fileId ∉ d.keys) (data : Bytes) :
    Packed (d.set fileId data).items (box.add fileId data) := by
  rw [Dict.items_set_of_notMem hnew]
  exact h.add hnew

theorem packed_erase (h : Packed d.items box) (hmem : fileId ∈ d.keys) :
    (box.remove fileId).2 = .ok () ∧ Packed (d.erase fileId).items (box.remove fileId).1 := by
  obtain ⟨pre, data, post, hsplit⟩ := exists_split hmem
  have hnodup := d.nodup
  rw [hsplit] at h hnodup
  rw [List.map_append, List.map_cons, List.nodup_middle, List.nodup_cons] at hnodup
  have hitems : (d.erase fileId).items = pre ++ post := by
    rw [Dict.items_erase, hsplit, List.filter_append, List.filter_cons, if_neg (by simp),
      ← List.filter_append, List.filter_eq_self]
    intro item hitem
    refine decide_eq_true fun heq => hnodup.1 ?_
    rw [← List.map_append, ← heq]
    exact List.mem_map.mpr ⟨item, hitem, rfl⟩
  rw [hitems]
  exact h.remove

omit [DecidableEq FileId] in
theorem packed_keys (h : Packed d.items box) : box.index.keys = d.keys := by
  rw [Dict.keys, h.index, PackedFallingBox.keys_layout]
  rfl

theorem packed_get (h : Packed d.items box) {data : Bytes} (hdata : d.get? fileId = some data) :
    (box.get fileId).2 = .ok data := by
  have hlookup : d.items.lookup fileId = some data := hdata
  rw [h.get, hlookup]

end Bodies

/-! ### One step -/

variable {s s' : State Thread FileId} {c : Tables Thread FileId}

/-- A thread has the lock of a box. -/
theorem Matches.body (h : Matches s c) (hinv : c.Inv P) {thread : Thread} {call : Call}
    {fileId : FileId} {which : Piece} {todo : List Piece} {before : Bool}
    (hpc : s.system.pc thread = .waiting call fileId which todo before) :
    ∃ c', Tables.Step P c (s.event P (.advance thread)) c' ∧
      Matches (s.act (.advance thread)) c' := by
  have htask : c.task thread = some ⟨call, fileId, which :: todo⟩ := by rw [← h.task, hpc]; rfl
  have hkeys := packed_keys (h.box which)
  rw [State.event, State.act, System.step, System.advance, hpc]
  dsimp only
  cases call with
  | add packed entry =>
    obtain ⟨file, hfile, hstage, hsuffix, -, -⟩ := hinv.adding htask
    have hnew : fileId ∉ (c.piece which).keys := by
      rw [hinv.mem_piece, hstage]
      exact fun hnot => hnot List.mem_cons_self
    exact ⟨_, .add htask, box_update h.box ((packed_set (h.box which) hnew _).paused _),
      h.entries, task_update h.task rfl, h.drawn⟩
  | remove =>
    by_cases hmem : fileId ∈ (c.piece which).keys
    · obtain ⟨hok, hpacked⟩ := packed_erase (h.box which) hmem
      rw [Call.body, hok]
      dsimp only
      rw [if_pos (hkeys ▸ hmem)]
      exact ⟨_, .cut htask hmem, box_update h.box (hpacked.paused _), h.entries,
        task_update h.task rfl, h.drawn⟩
    · have hgone : fileId ∉ (s.system.box which).index.keys := fun hf => hmem (hkeys ▸ hf)
      have hmiss : ¬ Call.remove.Finds fileId (s.system.box which) := hgone
      have hbody := Call.body_misses hmiss which
      rw [hbody]
      dsimp only
      rw [if_neg hgone]
      exact ⟨_, .refuse htask hmem, h.box, h.entries, task_update h.task rfl, h.drawn⟩
  | get =>
    by_cases hmem : fileId ∈ (c.piece which).keys
    · obtain ⟨data, hdata⟩ := Dict.mem_keys.mp hmem
      obtain ⟨item, hitem⟩ := Dict.mem_keys.mp (hkeys ▸ hmem)
      have hfound := packed_get (h.box which) hdata
      have hbody : Call.get.body fileId which (s.system.box which)
          = .ok { s.system.box which with paused := (s.system.box which).paused } := by
        rw [Call.body, PackedFallingBox.get, hitem]
        rfl
      rw [hbody]
      dsimp only
      rw [hfound]
      exact ⟨_, .answer htask hdata, box_stay h.box ((h.box which).paused _), h.entries,
        task_update h.task rfl, h.drawn⟩
    · have hgone : fileId ∉ (s.system.box which).index.keys := fun hf => hmem (hkeys ▸ hf)
      have hmiss : ¬ Call.get.Finds fileId (s.system.box which) := hgone
      have hnone : (s.system.box which).index.get? fileId = none := Dict.get?_eq_none.mpr hgone
      have hmissed : ((s.system.box which).get fileId).2 = .error .keyError := by
        rw [PackedFallingBox.get, hnone]
      have hbody := Call.body_misses hmiss which
      rw [hbody]
      dsimp only
      rw [hmissed]
      exact ⟨_, .miss htask hmem, h.box, h.entries, task_update h.task rfl, h.drawn⟩

/-- Every step of the storage is a step of the dictionaries. -/
theorem Matches.step {event : Event FileId} (h : Matches s c) (hinv : c.Inv P)
    (hstep : Step P s event s') : ∃ c', Tables.Step P c event c' ∧ Matches s' c' := by
  cases hstep with
  | @hold thread fileId file hpc hdrawn =>
    have htask : c.task thread = none := by rw [← h.task, hpc]; rfl
    rw [State.act, System.step, hpc]
    exact ⟨_, .hold htask (h.drawn ▸ hdrawn), h.box, h.entries, task_update h.task rfl,
      congrArg (Function.update · fileId (some file)) h.drawn⟩
  | @act a hnot =>
    cases a with
    | look which => exact ⟨c, .keep, h.box, h.entries, h.task, h.drawn⟩
    | hop which =>
      refine ⟨c, .keep, ?_⟩
      rw [State.act, System.step]
      split
      · exact ⟨box_stay h.box (h.box which).fall, h.entries, h.task, h.drawn⟩
      · exact ⟨h.box, h.entries, h.task, h.drawn⟩
    | retrieve thread fileId which =>
      rw [State.act, System.step]
      split
      · rename_i reconstructFrom name hpc hentry
        have htask : c.task thread = none := by rw [← h.task, hpc]; rfl
        exact ⟨_, .retrieve htask (h.entries ▸ hentry), h.box, h.entries,
          task_update h.task rfl, h.drawn⟩
      · exact ⟨c, .keep, h.box, h.entries, h.task, h.drawn⟩
    | forget thread fileId =>
      rw [State.act, System.step]
      split
      · rename_i entry hpc hentry
        have htask : c.task thread = none := by rw [← h.task, hpc]; rfl
        exact ⟨_, .forget htask (h.entries ▸ hentry), h.box, h.entries,
          task_update h.task rfl, h.drawn⟩
      · exact ⟨c, .keep, h.box, h.entries, h.task, h.drawn⟩
    | hold thread fileId packed entry => exact absurd rfl (hnot thread fileId packed entry)
    | advance thread =>
      cases hpc : s.system.pc thread with
      | idle =>
        refine ⟨c, ?_, ?_⟩
        · rw [State.event, hpc]
          exact .keep
        · rw [State.act, System.step, System.advance, hpc]
          exact h
      | waiting call fileId which todo before => exact h.body hinv hpc
      | leaving call fileId which todo =>
        refine ⟨c, ?_, ?_⟩
        · rw [State.event, hpc]
          exact .keep
        · rw [State.act, System.step, System.advance, hpc]
          exact ⟨box_stay h.box ((h.box which).paused false), h.entries,
            task_stay h.task (by rw [hpc]; rfl), h.drawn⟩
      | entering call fileId todo =>
        have htask : c.task thread = some ⟨call, fileId, todo⟩ := by rw [← h.task, hpc]; rfl
        rw [State.act, System.step, System.advance, hpc, State.event, hpc]
        cases todo with
        | cons which todo =>
          refine ⟨c, ?_, box_stay h.box ((h.box which).paused true), h.entries,
            task_stay h.task (by rw [hpc]; rfl), h.drawn⟩
          cases call <;> exact .keep
        | nil =>
          cases call with
          | get =>
            exact ⟨_, .done htask, h.box, h.entries, task_update h.task rfl, h.drawn⟩
          | remove =>
            exact ⟨_, .forgot htask, h.box, congrArg (Dict.erase · fileId) h.entries,
              task_update h.task rfl, h.drawn⟩
          | add packed entry =>
            obtain ⟨file, hfile, -⟩ := hinv.adding htask
            dsimp only
            rw [h.drawn, hfile]
            exact ⟨_, .save htask hfile, h.box, congrArg (Dict.set · fileId entry) h.entries,
              task_update h.task rfl, rfl⟩

/-- **Refinement.**  Every run of the storage is one of the dictionaries. -/
theorem refines {events : List (Event FileId)} (hrun : Run (Step P) start events s) :
    ∃ c : Tables Thread FileId,
      Run (Tables.Step P) .new events c ∧ Matches s c ∧ c.Told P events := by
  have hgoes : ∀ {t : State Thread FileId} {event : Event FileId} {u : State Thread FileId}
      {c : Tables Thread FileId}, Matches t c ∧ c.Inv P → Step P t event u →
      ∃ d, Tables.Step P c event d ∧ (Matches u d ∧ d.Inv P) := by
    intro t event u c h hstep
    obtain ⟨d, hd, hmatches⟩ := h.1.step h.2 hstep
    exact ⟨d, hd, hmatches, h.2.step hd⟩
  obtain ⟨c, hc, hmatches, -⟩ := hrun.related
    (R := fun s c => Matches s c ∧ c.Inv P) hgoes ⟨matches_new, Tables.inv_new⟩
  exact ⟨c, hc, hmatches, Tables.told hc⟩

/-! ### A run -/

/-- The states that some actions lead to, and what they show. -/
def State.after (s : State Thread FileId) (actions : List (Action Thread FileId)) :
    State Thread FileId :=
  actions.foldl State.act s

def State.shown (P : Primitives) (s : State Thread FileId) :
    List (Action Thread FileId) → List (Event FileId)
  | [] => []
  | a :: actions => s.event P a :: (s.act a).shown P actions

theorem run_shown {actions : List (Action Thread FileId)}
    (h : ∀ thread fileId packed entry, .hold thread fileId packed entry ∉ actions) :
    Run (Step P) s (s.shown P actions) (s.after actions) := by
  induction actions generalizing s with
  | nil => exact .nil
  | cons a actions ih =>
    have hfirst : Step P s (s.event P a) (s.act a) := by
      refine .act fun thread fileId packed entry heq => ?_
      exact h thread fileId packed entry (heq ▸ List.mem_cons_self)
    exact (Run.single hfirst).trans
      (ih fun thread fileId packed entry hmem => h _ _ _ _ (List.mem_cons_of_mem a hmem))

/-- A file is saved; one thread looks it up for `retrieve` and another for `forget`. -/
def sampleActions : List (PackedFailure.Action (Fin 3) ℕ) :=
  List.replicate 10 (.advance 0) ++ [.retrieve 1 5 none, .forget 2 5, .advance 1]

/-- The second goes on to cut the first piece. -/
def forgetActions : List (PackedFailure.Action (Fin 3) ℕ) :=
  sampleActions ++ List.replicate 3 (.advance 2)

theorem forgetActions_notMem (thread : Fin 3) (fileId : ℕ) (packed : Piece → Bytes)
    (entry : Piece × String) : .hold thread fileId packed entry ∉ forgetActions := by
  simp [forgetActions, sampleActions]

/-- The first thread has begun to save a file. -/
def holding (P : Primitives) (file : File) : State (Fin 3) ℕ :=
  { (start : State (Fin 3) ℕ) with drawn := Function.update (fun _ => none) 5 (some file) }.act
    (.hold 0 5 (fun p => P.pack (file.piece p)) file.entry)

theorem holding_run (P : Primitives) (file : File)
    {actions : List (PackedFailure.Action (Fin 3) ℕ)}
    (h : ∀ thread fileId packed entry, .hold thread fileId packed entry ∉ actions) :
    Run (Step P) start (.quiet :: (holding P file).shown P actions)
      ((holding P file).after actions) :=
  (Run.single (.hold rfl rfl)).trans (run_shown h)

def sampleFile : File := ⟨fun _ => [104, 105], (.content, "a")⟩

/-! ### Answers -/

section Marks

omit [DecidableEq Thread] in
theorem mem_marks {events : List (Event FileId)} {i : FileId} {p : Piece} :
    .cut p ∈ events.filterMap (Event.mark i) ↔ .cut i p ∈ events := by
  rw [List.mem_filterMap]
  constructor
  · rintro ⟨event, hevent, hmark⟩
    cases event with
    | cut j q =>
      rw [Event.mark] at hmark
      split at hmark
      · rename_i hji
        obtain rfl : q = p := Mark.cut.inj (Option.some.inj hmark)
        rwa [hji] at hevent
      · cases hmark
    | quiet => cases hmark
    | added j q data => rw [Event.mark] at hmark; split at hmark <;> cases hmark
    | saved j file => rw [Event.mark] at hmark; split at hmark <;> cases hmark
    | forgotten j => rw [Event.mark] at hmark; split at hmark <;> cases hmark
    | answered j q result => cases hmark
  · exact fun h => ⟨_, h, if_pos rfl⟩

omit [DecidableEq Thread] in
theorem exists_saved {events : List (Event FileId)} {i : FileId}
    (h : .saved ∈ events.filterMap (Event.mark i)) : ∃ file, .saved i file ∈ events := by
  obtain ⟨event, hevent, hmark⟩ := List.mem_filterMap.mp h
  cases event with
  | saved j file =>
    rw [Event.mark] at hmark
    split at hmark
    · rename_i hji
      exact ⟨file, hji ▸ hevent⟩
    · cases hmark
  | quiet => cases hmark
  | added j q data => rw [Event.mark] at hmark; split at hmark <;> cases hmark
  | cut j q => rw [Event.mark] at hmark; split at hmark <;> cases hmark
  | forgotten j => rw [Event.mark] at hmark; split at hmark <;> cases hmark
  | answered j q result => cases hmark

end Marks

section Stages

variable {Thread : Type*} {stage : Stage Thread}

theorem Stage.entered_iff : stage.Entered ↔ .saved ∈ stage.marks := by
  cases stage with
  | unborn => exact iff_of_false id (by simp [Stage.marks])
  | adding t todo => exact iff_of_false id (by simp [Stage.marks])
  | live => exact iff_of_true trivial (by simp [Stage.marks])
  | cutting t todo => exact iff_of_true trivial (by simp [Stage.marks])
  | gone => exact iff_of_true trivial (show Mark.saved ∈ lifecycle by decide)

theorem Stage.listed_iff : stage.Listed ↔ .saved ∈ stage.marks ∧ .forgotten ∉ stage.marks := by
  cases stage with
  | unborn => exact iff_of_false id (by simp [Stage.marks])
  | adding t todo => exact iff_of_false id (by simp [Stage.marks])
  | live => exact iff_of_true trivial (by simp [Stage.marks])
  | cutting t todo => exact iff_of_true trivial (by simp [Stage.marks])
  | gone => exact iff_of_false id fun h => h.2 (show Mark.forgotten ∈ lifecycle by decide)

theorem Stage.holds_iff (p : Piece) :
    stage.Holds p ↔ .added p ∈ stage.marks ∧ .cut p ∉ stage.marks := by
  have hp := Tables.mem_pieces p
  cases stage with
  | unborn => exact iff_of_false id (by simp [Stage.marks])
  | adding t todo => simp [Stage.marks, Stage.Holds, hp]
  | live => simp [Stage.marks, Stage.Holds, hp]
  | cutting t todo => simp [Stage.marks, Stage.Holds, hp]
  | gone => exact iff_of_false id fun h => h.2 (show .cut p ∈ lifecycle by cases p <;> decide)

end Stages

/-- **Answers.**  In every run a retrieval that gets the lock of a box is about a file that has
been saved; it is answered with the piece that was saved, or, when the piece has been cut by
then, with `KeyError`. -/
theorem answered_eq {events pre post : List (Event FileId)} {i : FileId} {which : Piece}
    {result : Except PyError Bytes}
    (hrun : Run (Step P) (start : State Thread FileId) events s)
    (hsplit : events = pre ++ .answered i which result :: post) :
    ∃ file, .saved i file ∈ pre ∧
      ((.cut i which ∉ pre ∧ result = .ok (file.piece which)) ∨
        (.cut i which ∈ pre ∧ result = .error .keyError)) := by
  obtain ⟨c, hc, -, -⟩ := refines hrun
  rw [hsplit] at hc
  obtain ⟨c₁, c₂, hpre, hstep⟩ := hc.before
  have htold := Tables.told hpre
  have hentered : (c₁.stage i).Entered := by
    cases hstep with
    | answer htask _ => exact htold.inv.gets _ _ _ htask
    | miss htask _ => exact htold.inv.gets _ _ _ htask
  have hmarks := htold.marks i
  obtain ⟨file, hsaved⟩ := exists_saved (hmarks ▸ Stage.entered_iff.mp hentered)
  refine ⟨file, hsaved, ?_⟩
  obtain ⟨hpiece, -⟩ := htold.inv.shows i file (htold.saved i file hsaved)
  -- the piece is in its box exactly when it has not been cut
  have hholds : (c₁.stage i).Holds which ↔ .cut i which ∉ pre := by
    rw [Stage.holds_iff, ← hmarks, mem_marks, hmarks, and_iff_right_iff_imp]
    intro _
    cases hstage : c₁.stage i with
    | unborn => rw [hstage] at hentered; exact hentered.elim
    | adding t todo => rw [hstage] at hentered; exact hentered.elim
    | live => simp [Stage.marks, Tables.mem_pieces]
    | cutting t todo => simp [Stage.marks, Tables.mem_pieces]
    | gone => exact (show .added which ∈ lifecycle by cases which <;> decide)
  cases hstep with
  | answer htask hdata =>
    obtain ⟨hin, rfl⟩ := (hpiece which _).mp hdata
    exact Or.inl ⟨hholds.mp hin, P.unpack_pack _⟩
  | miss htask hgone =>
    refine Or.inr ⟨?_, rfl⟩
    rw [htold.inv.mem_piece, hholds, not_not] at hgone
    exact hgone

theorem answered_eq_sample :
    ∃ (events : List (Event ℕ)) (result : Except PyError Bytes) (s : State (Fin 3) ℕ),
      Run (Step Primitives.sample) start (events ++ [.answered 5 .content result]) s ∧
      ∃ file, .saved 5 file ∈ events ∧
        ((.cut 5 .content ∉ events ∧ result = .ok (file.piece .content)) ∨
          (.cut 5 .content ∈ events ∧ result = .error .keyError)) := by
  have hnone : ∀ thread fileId packed entry, .hold thread fileId packed entry ∉ sampleActions := by
    simp [sampleActions]
  have hbefore := holding_run .sample sampleFile hnone
  have hlast : Step Primitives.sample ((holding .sample sampleFile).after sampleActions)
      (.answered 5 .content (.ok [104, 105])) _ :=
    .act (a := .advance 1) nofun
  exact ⟨_, _, _, hbefore.snoc hlast, answered_eq (hbefore.snoc hlast) rfl⟩

/-! ### Lives -/

/-- **Lives.**  In every run what happens to a file is the beginning of one sequence: its pieces
are added, it is entered, the pieces are cut and it is taken out, all in order and each once.  It
is in the table between the entering and the taking out, and a piece is in its box from when it
is added until it is cut. -/
theorem lifecycle_prefix {events : List (Event FileId)}
    (hrun : Run (Step P) (start : State Thread FileId) events s) (i : FileId) :
    events.filterMap (Event.mark i) <+: lifecycle ∧
      (i ∈ s.system.entries.keys ↔ .saved ∈ events.filterMap (Event.mark i) ∧
        .forgotten ∉ events.filterMap (Event.mark i)) ∧
      ∀ p, i ∈ (s.system.box p).index.keys ↔ .added p ∈ events.filterMap (Event.mark i) ∧
        .cut p ∉ events.filterMap (Event.mark i) := by
  obtain ⟨c, -, hmatches, htold⟩ := refines hrun
  rw [htold.marks]
  refine ⟨?_, ?_, fun p => ?_⟩
  · cases hstage : c.stage i with
    | unborn => exact List.nil_prefix
    | adding t todo =>
      obtain ⟨pre, hpre⟩ := htold.inv.suffix.1 hstage
      have hnodup := Tables.nodup_pieces
      rw [← hpre] at hnodup
      have hadded : pieces.map Mark.added <+: lifecycle := by decide
      rw [Stage.marks, ← hpre, Tables.filter_notMem hnodup]
      rw [← hpre, List.map_append] at hadded
      exact (List.prefix_append ..).trans hadded
    | live => exact (by decide : pieces.map Mark.added ++ [.saved] <+: lifecycle)
    | cutting t todo =>
      obtain ⟨pre, hpre⟩ := (htold.inv.suffix.2 hstage).trans (List.suffix_cons Piece.content _)
      have hall : pre ++ todo = pieces := hpre
      have hnodup := Tables.nodup_pieces
      rw [← hall] at hnodup
      have hcut : pieces.map Mark.added ++ .saved :: pieces.map Mark.cut <+: lifecycle := by decide
      rw [Stage.marks, ← hall, Tables.filter_notMem hnodup]
      rw [← hall, List.map_append, List.map_append, ← List.cons_append, ← List.append_assoc] at hcut
      rw [List.map_append]
      exact (List.prefix_append ..).trans hcut
    | gone => exact List.prefix_rfl
  · rw [hmatches.entries, htold.inv.mem_entries, Stage.listed_iff]
  · rw [packed_keys (hmatches.box p), htold.inv.mem_piece, Stage.holds_iff]

theorem lifecycle_prefix_sample :
    ∃ (events : List (Event ℕ)) (s : State (Fin 3) ℕ), Run (Step Primitives.sample) start events s ∧
      events.filterMap (Event.mark 5)
        = [.added .content, .added .structural, .added .metadata, .saved, .cut .content] ∧
      events.filterMap (Event.mark 5) <+: lifecycle ∧
      (5 ∈ s.system.entries.keys ↔ .saved ∈ events.filterMap (Event.mark 5) ∧
        .forgotten ∉ events.filterMap (Event.mark 5)) ∧
      ∀ p, 5 ∈ (s.system.box p).index.keys ↔ .added p ∈ events.filterMap (Event.mark 5) ∧
        .cut p ∉ events.filterMap (Event.mark 5) := by
  have hrun := holding_run .sample sampleFile forgetActions_notMem
  exact ⟨_, _, hrun, rfl, lifecycle_prefix hrun 5⟩

/-- **Forgetting.**  A call of `forget` that has cut a piece finds the file in the boxes that it
has still to pass, in no other, and in the table; and no other such call gets as far. -/
theorem forget_finds {events : List (Event FileId)} {thread : Thread} {i : FileId}
    {todo : List Piece} (hrun : Run (Step P) (start : State Thread FileId) events s)
    (htask : task (s.system.pc thread) = some ⟨.remove, i, todo⟩) (hbegun : todo ≠ pieces) :
    i ∈ s.system.entries.keys ∧ (∀ p, i ∈ (s.system.box p).index.keys ↔ p ∈ todo) ∧
      ∀ other todo', task (s.system.pc other) = some ⟨.remove, i, todo'⟩ →
        other = thread ∨ todo' = pieces := by
  obtain ⟨c, -, hmatches, htold⟩ := refines hrun
  rw [hmatches.task] at htask
  have hstage := (htold.inv.cuts thread i todo htask).resolve_right fun hall => hbegun hall.1
  refine ⟨?_, fun p => ?_, fun other todo' hother => ?_⟩
  · rw [hmatches.entries, htold.inv.mem_entries, hstage]
    trivial
  · rw [packed_keys (hmatches.box p), htold.inv.mem_piece, hstage]
    exact Iff.rfl
  · rw [hmatches.task] at hother
    rcases htold.inv.cuts other i todo' hother with hcutting | ⟨hall, -⟩
    · exact Or.inl (Stage.cutting.inj (hcutting.symm.trans hstage)).1
    · exact Or.inr hall

theorem forget_finds_sample :
    ∃ s : State (Fin 3) ℕ, task (s.system.pc 2) = some ⟨.remove, 5, [.structural, .metadata]⟩ ∧
      5 ∈ s.system.entries.keys ∧
      (∀ p, 5 ∈ (s.system.box p).index.keys ↔ p ∈ [Piece.structural, .metadata]) ∧
      ∀ other todo', task (s.system.pc other) = some ⟨.remove, 5, todo'⟩ →
        other = 2 ∨ todo' = pieces := by
  have hrun := holding_run .sample sampleFile forgetActions_notMem
  exact ⟨_, rfl, forget_finds hrun rfl nofun⟩

/-! ### Boxes -/

/-- How much room a piece of a file takes. -/
def State.room (P : Primitives) (s : State Thread FileId) (p : Piece) (i : FileId) : ℕ :=
  match s.drawn i with
  | some file => (P.pack (file.piece p)).length
  | none => 0

omit [DecidableEq FileId] in
theorem length_pack (pieces : List (FileId × Bytes)) :
    (PackedFallingBox.pack pieces).length = (pieces.map fun item => item.2.length).sum := by
  rw [PackedFallingBox.pack, List.length_flatten, List.map_map]
  rfl

/-- **Boxes.**  In every run each shared box holds, back to back in the order of adding, the
pieces that have been added and not cut, and its index tells where; the table is what has been
saved and not forgotten.  When no call is under way, the names in each box are those in the
table, and both buffers have just the room that the files in the table take. -/
theorem packed_eq {events : List (Event FileId)}
    (hrun : Run (Step P) (start : State Thread FileId) events s) :
    (∀ p, Packed (stored (events.map (Event.effect p))).items (s.system.box p)) ∧
      s.system.entries = stored (events.map Event.tableEffect) ∧
      ((∀ t, s.system.pc t = .idle) → ∀ p,
        (s.system.box p).index.keys.Perm s.system.entries.keys ∧
          (s.system.box p).boxA.length = (s.system.box p).boxB.length ∧
          (s.system.box p).boxA.length = (s.system.entries.keys.map (s.room P p)).sum) := by
  obtain ⟨c, -, hmatches, htold⟩ := refines hrun
  refine ⟨fun p => htold.piece p ▸ hmatches.box p, hmatches.entries.trans htold.entries,
    fun hidle p => ?_⟩
  have hstage : ∀ i, (c.stage i).Holds p ↔ (c.stage i).Listed := fun i =>
    htold.inv.settled (fun t => by rw [← hmatches.task, hidle]; rfl) i p
  have hperm : (c.piece p).keys.Perm c.entries.keys := by
    refine (List.perm_ext_iff_of_nodup (c.piece p).nodup c.entries.nodup).mpr fun i => ?_
    exact (htold.inv.mem_piece i p).trans ((hstage i).trans (htold.inv.mem_entries i).symm)
  have hroom : ∀ item ∈ (c.piece p).items, item.2.length = s.room P p item.1 := by
    rintro ⟨i, data⟩ hitem
    have hdata : (c.piece p).get? i = some data := Dict.get?_eq_some.mpr hitem
    have hheld := (htold.inv.mem_piece i p).mp (Dict.mem_keys.mpr ⟨_, hdata⟩)
    obtain ⟨file, hfile⟩ := htold.inv.drawn (i := i) (by
      rintro hunborn
      rw [hunborn] at hheld
      exact hheld)
    rw [State.room, hmatches.drawn, hfile]
    obtain ⟨-, rfl⟩ := ((htold.inv.shows i file hfile).piece p data).mp hdata
    rfl
  refine ⟨?_, (hmatches.box p).length, ?_⟩
  · rw [packed_keys (hmatches.box p), hmatches.entries]
    exact hperm
  · rw [(hmatches.box p).length_boxA, length_pack, List.map_congr_left hroom, hmatches.entries,
      ← (hperm.map (s.room P p)).sum_eq, Dict.keys, List.map_map]
    rfl

theorem packed_eq_sample :
    ∃ (events : List (Event ℕ)) (s : State (Fin 3) ℕ), (∀ t, s.system.pc t = .idle) ∧
      (∀ p, Packed (stored (events.map (Event.effect p))).items (s.system.box p)) ∧
      s.system.entries = stored (events.map Event.tableEffect) ∧
      ∀ p, (s.system.box p).index.keys.Perm s.system.entries.keys ∧
        (s.system.box p).boxA.length = (s.system.box p).boxB.length ∧
        (s.system.box p).boxA.length
          = (s.system.entries.keys.map (s.room Primitives.sample p)).sum := by
  have hnone : ∀ thread fileId packed entry, (.hold thread fileId packed entry :
      PackedFailure.Action (Fin 3) ℕ) ∉ List.replicate 10 (.advance 0) := by
    simp
  have hrun := holding_run .sample sampleFile hnone
  obtain ⟨hboxes, htable, hidle⟩ := packed_eq hrun
  have hall : ∀ t, ((holding .sample sampleFile).after
      (List.replicate 10 (.advance 0))).system.pc t = .idle := by
    intro t
    fin_cases t <;> rfl
  exact ⟨_, _, hall, hboxes, htable, hidle hall⟩

end PackedFiles
