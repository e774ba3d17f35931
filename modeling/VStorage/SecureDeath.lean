/-
What is left of the files in the storage.

* `live_iff`: the boxes that are alive are those of calls that have not returned, those in the
  table, and those that a `forget` has yet to come to;
* `collapse_all`: once everything is forgotten, those of failed calls of `save`.
-/
import Mathlib
import VStorage.SecureRetrieval

namespace SecureFiles

open ChunkedSecureBox
open Splitter (Disk)

variable {FileId : Type*} [DecidableEq FileId] {P : Primitives} {L : Splitter.Libraries}
  {trustGroup : Bool} {watchdog : Option ProcessWatchdog} {disk : Disk} {s : State FileId}
  {files : Dict FileId File}

/-! ### What is alive -/

/-- The call has not returned, and never will: it runs, or it has raised. -/
def Call.Pending (c : Call) : Prop := c.phase = .making ∨ c.phase = .registered ∨ c.phase = .raised

/-- Something still needs the box, or has lost it: a call that has not returned, the table, or a
`forget` that has not come to it. -/
def State.Kept (s : State FileId) (b : ℕ) : Prop :=
  (∃ fileId c, s.Owns fileId c b ∧ c.Pending) ∨
    (∃ fileId held p, s.held.get? fileId = some held ∧ held.box p = b) ∨ b ∈ s.forgetting

theorem Inv.stays_iff (h : Inv P files s) {b : ℕ} {f : Falling} (hf : s.boxes[b]? = some f) :
    f.box.removed = false ↔ s.Kept b := by
  obtain ⟨fileId, c, hc, hb⟩ := h.owned (List.getElem?_eq_some_iff.mp hf).1
  rw [← Bool.not_eq_true, h.removed ⟨hc, hb⟩ hf]
  -- the box is that of one call only
  have hsole : ∀ {other d}, s.Owns other d b → other = fileId ∧ d = c := by
    intro other d howns
    obtain ⟨k, hk⟩ := List.getElem?_of_mem howns.2
    obtain ⟨k', hk'⟩ := List.getElem?_of_mem hb
    obtain ⟨rfl, -⟩ := h.apart howns.1 hc hk hk'
    exact ⟨rfl, Option.some.inj (howns.1.symm.trans hc)⟩
  constructor
  · intro hnot
    cases hphase : c.phase with
    | making => exact Or.inl ⟨fileId, c, ⟨hc, hb⟩, Or.inl hphase⟩
    | registered => exact Or.inl ⟨fileId, c, ⟨hc, hb⟩, Or.inr (Or.inl hphase)⟩
    | raised => exact Or.inl ⟨fileId, c, ⟨hc, hb⟩, Or.inr (Or.inr hphase)⟩
    | forgotten => exact Or.inr (Or.inr (by_contra fun hb => hnot ⟨hphase, hb⟩))
    | held size =>
      have hlen := h.length hc (by rw [hphase]; exact nofun) (by rw [hphase]; exact nofun)
      rw [← boxes_entry hlen size] at hb
      refine Or.inr (Or.inl ⟨fileId, c.entry size, ?_⟩)
      have hentry := h.entry.mpr ⟨c, size, hc, hphase, rfl⟩
      rcases List.mem_cons.mp hb with rfl | hb
      · exact ⟨.content, hentry, rfl⟩
      rcases List.mem_cons.mp hb with rfl | hb
      · exact ⟨.structural, hentry, rfl⟩
      · exact ⟨.metadata, hentry, (List.mem_singleton.mp hb).symm⟩
  · rintro (⟨other, d, howns, hpending⟩ | ⟨other, held, p, hheld, rfl⟩ | hforgetting) ⟨hphase, hnot⟩
    · obtain ⟨-, rfl⟩ := hsole howns
      rcases hpending with hp | hp | hp <;> exact nomatch hp.symm.trans hphase
    · obtain ⟨d, size, hd, hp, rfl⟩ := h.entry.mp hheld
      have hlen := h.length hd (by rw [hp]; exact nofun) (by rw [hp]; exact nofun)
      obtain ⟨-, rfl⟩ := hsole ⟨hd, List.mem_of_getElem? (entry_box hlen size p)⟩
      exact nomatch hp.symm.trans hphase
    · exact hnot hforgetting

/-- **What is alive.**  After any interleaving, a box is alive exactly when a call that has not
returned has made it, or it is in the table, or a `forget` has yet to come to it.  The others are
silent, their pools and the two guards in use are closed; and another guard of theirs is open
exactly when a hop had raised in its rotation. -/
theorem live_iff {events : List (Event FileId)}
    (hrun : Run (Step P L trustGroup) (start watchdog disk) events s) {b : ℕ} {f : Falling}
    (hf : s.boxes[b]? = some f) :
    (f.box.removed = false ↔ s.Kept b) ∧
      (f.box.removed = true → Dead f.box ∧ Silent P f.box ∧
        ((∀ g ∈ f.box.guards, g.Collapsed) ↔ f.stopped = false)) := by
  have hinv := (refines P L trustGroup watchdog disk).run hrun
  have hlives := hinv.lives f (List.mem_of_getElem? hf)
  refine ⟨hinv.stays_iff hf, fun hremoved => ?_⟩
  have hdead := hlives.dead_of_removed hremoved
  exact ⟨hdead, hdead.silent, hlives.collapsed_iff hremoved⟩

theorem live_iff_sample :
    ∃ (s : State ℕ) (b : ℕ) (f : Falling), s.boxes[b]? = some f ∧
      (f.box.removed = false ↔ s.Kept b) ∧
      (f.box.removed = true → Dead f.box ∧ Silent .sample f.box ∧
        ((∀ g ∈ f.box.guards, g.Collapsed) ↔ f.stopped = false)) := by
  obtain ⟨events, s, held, c, hrun, hheld, -⟩ := sample_run
  have hinv := (refines Primitives.sample Splitter.Libraries.sample false none sampleDisk).run hrun
  have hf := List.getElem?_eq_getElem (hinv.entry_lt hheld .content)
  exact ⟨s, _, _, hf, live_iff hrun hf⟩

/-! ### Death -/

/-- `box.collapse()`, for a box that a `forget` has taken out. -/
def State.collapse (s : State FileId) (b : ℕ) : State FileId :=
  match s.boxes[b]? with
  | none => s
  | some f => { s with forgetting := s.forgetting.erase b }.setBox b
      { f with box := f.box.collapse }

/-- `forget`, when nothing comes between its steps. -/
def State.forget (s : State FileId) (fileId : FileId) : State FileId :=
  match s.held.get? fileId, s.calls fileId with
  | some held, some c =>
    held.boxes.foldl State.collapse ({ s with
      held := s.held.erase fileId
      forgetting := s.forgetting ++ held.boxes }.setCall fileId { c with phase := .forgotten })
  | _, _ => s

/-- `collapse_all`, as far as the files go. -/
def State.collapseAll (s : State FileId) : State FileId := s.held.keys.foldl State.forget s

/-- A run of steps on the boxes that a `forget` has taken out. -/
theorem Inv.collapse_run (h : Inv P files s) {bs : List ℕ} (hmem : ∀ b ∈ bs, b ∈ s.forgetting)
    (hnodup : bs.Nodup) :
    (∃ events, Run (Step P L trustGroup) s events (bs.foldl State.collapse s)) ∧
      (bs.foldl State.collapse s).held = s.held ∧ (bs.foldl State.collapse s).calls = s.calls ∧
      ∀ b, b ∈ (bs.foldl State.collapse s).forgetting ↔ b ∈ s.forgetting ∧ b ∉ bs := by
  induction bs generalizing s with
  | nil => exact ⟨⟨[], Run.nil⟩, rfl, rfl, fun b => by simp⟩
  | cons b bs ih =>
    obtain ⟨hb, hrest⟩ := List.forall_mem_cons.mp hmem
    obtain ⟨hnot, hnodup⟩ := List.nodup_cons.mp hnodup
    obtain ⟨fileId, c, howns, -⟩ := h.forgetting hb
    obtain ⟨f, hf⟩ : ∃ f, s.boxes[b]? = some f := ⟨_, List.getElem?_eq_getElem (h.lt howns)⟩
    have hcollapse : s.collapse b = { s with forgetting := s.forgetting.erase b }.setBox b
        { f with box := f.box.collapse } := by
      rw [State.collapse, hf]
    have hstep : Step P L trustGroup s .quiet (s.collapse b) := by
      rw [hcollapse]
      exact .collapse hb hf
    have hforgetting : (s.collapse b).forgetting = s.forgetting.erase b := by
      rw [hcollapse]
      rfl
    obtain ⟨⟨events, hrun⟩, hheld, hcalls, hleft⟩ := ih (h.step hstep) (fun b' hb' => by
      rw [hforgetting, h.nodup.mem_erase_iff]
      exact ⟨fun heq => hnot (heq ▸ hb'), hrest b' hb'⟩) hnodup
    refine ⟨⟨_, (Run.single hstep).trans hrun⟩, ?_, ?_, fun b' => ?_⟩
    · refine hheld.trans ?_
      rw [hcollapse]
      rfl
    · refine hcalls.trans ?_
      rw [hcollapse]
      rfl
    · refine (hleft b').trans ?_
      rw [hforgetting, h.nodup.mem_erase_iff, List.mem_cons, not_or]
      tauto

/-- What a `forget` does, when nothing comes between its steps. -/
structure Forgotten (P : Primitives) (L : Splitter.Libraries) (trustGroup : Bool)
    (fileIds : List FileId) (s t : State FileId) : Prop where
  run : ∃ events, Run (Step P L trustGroup) s events t
  keys : t.held.keys = s.held.keys.filter (· ∉ fileIds)
  forgetting : ∀ b, b ∈ t.forgetting ↔ b ∈ s.forgetting
  pending : ∀ fileId c, c.Pending → (t.calls fileId = some c ↔ s.calls fileId = some c)

theorem Inv.forget_run (h : Inv P files s) (fileId : FileId) :
    Forgotten P L trustGroup [fileId] s (s.forget fileId) := by
  cases hheld : s.held.get? fileId with
  | none =>
    have hsame : s.forget fileId = s := by
      rw [State.forget, hheld]
    rw [hsame]
    refine ⟨⟨[], Run.nil⟩, (List.filter_eq_self.mpr fun other hother => ?_).symm, fun _ => Iff.rfl,
      fun _ _ _ => Iff.rfl⟩
    rw [decide_eq_true_eq, List.mem_singleton]
    rintro rfl
    exact Dict.get?_eq_none.mp hheld hother
  | some held =>
    obtain ⟨c, size, hc, hphase, rfl⟩ := h.entry.mp hheld
    have hlen := h.length hc (by rw [hphase]; exact nofun) (by rw [hphase]; exact nofun)
    have hstep : Step P L trustGroup s (.forgot fileId) _ := .forget hheld hc
    have hinv := h.step hstep
    have hnodup := List.nodup_append.mp hinv.nodup
    obtain ⟨⟨events, hrun⟩, hheld', hcalls, hleft⟩ :
        (∃ events, Run (Step P L trustGroup) _ events _) ∧ _ :=
      hinv.collapse_run (fun b hb => List.mem_append_right _ hb) hnodup.2.1
    have hforget : s.forget fileId = (c.entry size).boxes.foldl State.collapse ({ s with
        held := s.held.erase fileId
        forgetting := s.forgetting ++ (c.entry size).boxes }.setCall fileId
          { c with phase := .forgotten }) := by
      rw [State.forget, hheld, hc]
    rw [hforget]
    refine ⟨⟨_, (Run.single hstep).trans hrun⟩, ?_, fun b => (hleft b).trans ?_,
      fun other d hpending => ?_⟩
    · rw [hheld']
      refine (KeyedStore.keys_erase ..).trans (List.filter_congr fun other _ => ?_)
      rw [decide_eq_decide, List.mem_singleton]
    · show b ∈ s.forgetting ++ (c.entry size).boxes ∧ _ ↔ _
      rw [List.mem_append]
      refine ⟨fun hb => hb.1.resolve_right hb.2, fun hb => ⟨Or.inl hb, fun hmem => ?_⟩⟩
      exact hnodup.2.2 b hb b hmem rfl
    · rw [hcalls]
      by_cases hother : other = fileId
      · subst hother
        refine iff_of_false (fun hd => ?_) fun hd => ?_
        · obtain rfl := Option.some.inj (calls_setCall_self.symm.trans hd)
          rcases hpending with hp | hp | hp <;> exact nomatch hp
        · obtain rfl := Option.some.inj (hc.symm.trans hd)
          rcases hpending with hp | hp | hp <;> exact nomatch hp.symm.trans hphase
      · rw [calls_setCall_of_ne hother]

theorem Inv.forget_all (h : Inv P files s) (fileIds : List FileId) :
    Forgotten P L trustGroup fileIds s (fileIds.foldl State.forget s) := by
  induction fileIds generalizing s files with
  | nil => exact ⟨⟨[], Run.nil⟩, by simp, fun _ => Iff.rfl, fun _ _ _ => Iff.rfl⟩
  | cons fileId fileIds ih =>
    have hfirst : Forgotten P L trustGroup [fileId] s (s.forget fileId) := h.forget_run fileId
    obtain ⟨events, hrun⟩ := hfirst.run
    obtain ⟨files', hinv⟩ : ∃ files', Inv P files' (s.forget fileId) :=
      hrun.invariant (I := fun t => ∃ files', Inv P files' t) ⟨files, h⟩
        fun ⟨files', ht⟩ hstep => ⟨_, ht.step hstep⟩
    have hrest : Forgotten P L trustGroup fileIds (s.forget fileId) _ := ih hinv
    obtain ⟨events', hrun'⟩ := hrest.run
    refine ⟨⟨_, hrun.trans hrun'⟩, ?_, fun b => (hrest.forgetting b).trans (hfirst.forgetting b),
      fun other c hpending => (hrest.pending other c hpending).trans
        (hfirst.pending other c hpending)⟩
    rw [List.foldl_cons, hrest.keys, hfirst.keys, List.filter_filter]
    refine List.filter_congr fun other _ => ?_
    rw [← Bool.decide_and, decide_eq_decide, List.mem_singleton, List.mem_cons, not_or, and_comm]

/-- **Death.**  When no call is running, `collapse_all` empties the table, and then the boxes that
are alive are exactly those of the calls of `save` that have raised. -/
theorem collapse_all {events : List (Event FileId)}
    (hrun : Run (Step P L trustGroup) (start watchdog disk) events s)
    (hidle : ∀ fileId c, s.calls fileId = some c → c.phase ≠ .making ∧ c.phase ≠ .registered)
    (hdone : s.forgetting = []) :
    (∃ later, Run (Step P L trustGroup) s later s.collapseAll) ∧ s.collapseAll.listIds = [] ∧
      ∀ (b : ℕ) (f : Falling), s.collapseAll.boxes[b]? = some f →
        (f.box.removed = false ↔ ∃ fileId c, s.Owns fileId c b ∧ c.phase = .raised) ∧
        (f.box.removed = true → Dead f.box ∧
          ((∀ g ∈ f.box.guards, g.Collapsed) ↔ f.stopped = false)) := by
  have hinv := (refines P L trustGroup watchdog disk).run hrun
  have hall : Forgotten P L trustGroup s.held.keys s s.collapseAll := hinv.forget_all _
  obtain ⟨later, hlater⟩ := hall.run
  have hinv' := (refines P L trustGroup watchdog disk).run (hrun.trans hlater)
  have hkeys : s.collapseAll.held.keys = [] := by
    rw [hall.keys]
    exact List.filter_eq_nil_iff.mpr fun fileId hfileId => by simpa using hfileId
  refine ⟨⟨later, hlater⟩, hkeys, fun b f hf => ⟨(hinv'.stays_iff hf).trans ?_, fun hremoved => ?_⟩⟩
  · constructor
    · rintro (⟨fileId, c, ⟨hc, hb⟩, hpending⟩ | ⟨fileId, held, p, hheld, -⟩ | hforgetting)
      · have hc' := (hall.pending fileId c hpending).mp hc
        refine ⟨fileId, c, ⟨hc', hb⟩, ?_⟩
        obtain ⟨hmaking, hregistered⟩ := hidle fileId c hc'
        exact (hpending.resolve_left hmaking).resolve_left hregistered
      · have hmem := Dict.mem_keys.mpr ⟨held, hheld⟩
        rw [hkeys] at hmem
        exact nomatch hmem
      · have hmem := (hall.forgetting b).mp hforgetting
        rw [hdone] at hmem
        exact nomatch hmem
    · rintro ⟨fileId, c, ⟨hc, hb⟩, hphase⟩
      have hpending : c.Pending := Or.inr (Or.inr hphase)
      exact Or.inl ⟨fileId, c, ⟨(hall.pending fileId c hpending).mpr hc, hb⟩, hpending⟩
  · have hlives := hinv'.lives f (List.mem_of_getElem? hf)
    exact ⟨hlives.dead_of_removed hremoved, hlives.collapsed_iff hremoved⟩

theorem collapse_all_sample :
    ∃ s : State ℕ, s.listIds ≠ [] ∧
      (∃ later, Run (Step .sample .sample false) s later s.collapseAll) ∧
      s.collapseAll.listIds = [] ∧
      ∀ (b : ℕ) (f : Falling), s.collapseAll.boxes[b]? = some f →
        (f.box.removed = false ↔ ∃ fileId c, s.Owns fileId c b ∧ c.phase = .raised) ∧
        (f.box.removed = true → Dead f.box ∧
          ((∀ g ∈ f.box.guards, g.Collapsed) ↔ f.stopped = false)) := by
  obtain ⟨events, s, held, c, hrun, hheld, -, hforgetting, hcalls⟩ := sample_run
  refine ⟨s, List.ne_nil_of_mem (Dict.mem_keys.mpr ⟨held, hheld⟩), ?_⟩
  refine collapse_all hrun (fun fileId c hc => ?_) hforgetting
  obtain ⟨size, hphase⟩ := hcalls fileId c hc
  rw [hphase]
  exact ⟨nofun, nofun⟩

end SecureFiles
