/-
The life of a box in the storage.

A box falls; or its last hop has raised, and it falls no more; or it has been collapsed.  As long
as it has not been collapsed it holds what it was made from, and a hop that raises leaves the old
guard behind, which nothing will ever collapse.

* `Falling.Lives.hop`, `Falling.Lives.bounce`, `Falling.Lives.pause`, `Falling.Lives.collapse`:
  every step leads from one of the three to one of them;
* `Falling.Lives.collapsed_iff`: a box that has been collapsed keeps an open guard exactly when a
  hop of it had raised.
-/
import Mathlib
import VStorage.FallScheduler
import VStorage.SecureFiles

namespace SecureFiles

open ChunkedSecureBox
open SaveFailure (defaultChunkSize)
open SecureVirtualStorage (Slot)

/-! ### The life of a box -/

/-- Both guards in use have been collapsed, and the pools. -/
structure Dead (box : ChunkedSecureBox) : Prop where
  removed : box.removed = true
  current : ∃ g, box.guards[box.currentGuard]? = some g ∧ g.Collapsed
  next : ∃ g, box.guards[box.nextGuard]? = some g ∧ g.Collapsed
  pools : ∀ pool ∈ box.pools, pool.closed = true

/-- A guard is open that is not in use any more. -/
def Leftover (box : ChunkedSecureBox) : Prop :=
  ∃ i g, box.guards[i]? = some g ∧ g.Open ∧ i ≠ box.currentGuard ∧ i ≠ box.nextGuard

/-- What the box was made from, cut into chunks. -/
structure Falling.Cut (f : Falling) (plains : List Bytes) : Prop where
  flatten : plains.flatten = f.data
  length_le : ∀ p ∈ plains, p.length ≤ defaultChunkSize

/-- A box falls, or its last hop has raised, or it has been collapsed. -/
inductive Falling.Lives (P : Primitives) (f : Falling) : Prop
  | falls {plains : List Bytes} : f.box.removed = false → f.stopped = false → f.Cut plains →
      Tidy P plains f.box → f.Lives P
  | stopped {plains : List Bytes} {ck nk : Bytes} : f.box.removed = false → f.stopped = true →
      f.Cut plains → Holds P plains ck nk f.box → Leftover f.box → f.Lives P
  | dead : Dead f.box → (f.stopped = true → Leftover f.box) →
      (f.stopped = false → ∀ g ∈ f.box.guards, g.Collapsed) → f.Lives P

variable {P : Primitives} {f : Falling}

theorem lives_construct {src : Source} {env : InitEnv} {data : Bytes} {trustGroup onNewGuard : Bool}
    {box : ChunkedSecureBox}
    (h : construct src P env data defaultChunkSize trustGroup onNewGuard = .ok box) :
    box.removed = false ∧ (Falling.new box data).Lives P := by
  have hremoved := (construct_flags h).2.1
  obtain ⟨plains, ck, nk, hflat, hle, hold, hne⟩ := construct_ok h
  obtain ⟨_, -, -, htwo⟩ := tidy_construct h
  exact ⟨hremoved, .falls hremoved rfl ⟨hflat, hle⟩ ⟨⟨ck, nk, hold, hne⟩, htwo⟩⟩

/-- **One hop.**  It returns, and the box falls on; or it raises in its rotation, and leaves the
old guard behind. -/
theorem Falling.Lives.hop (h : f.Lives P) (hremoved : f.box.removed = false)
    (hstopped : f.stopped = false) {env : HopEnv} (hcall : env.callback = .ok ())
    (slot : Option Slot) :
    (f.box.hop P env).box.removed = false ∧ (f.hopped (f.box.hop P env) slot).Lives P := by
  cases h with
  | stopped _ hs => exact nomatch hs.symm.trans hstopped
  | dead hdead => exact nomatch hdead.removed.symm.trans hremoved
  | @falls plains _ _ hcut htidy =>
    have hflags := (htidy.1.hop_flags env).1.trans hremoved
    refine ⟨hflags, ?_⟩
    obtain ⟨⟨ck, nk, hold, hne⟩, htwo⟩ := id htidy
    obtain ⟨pools, hadv, ⟨hw, hhop⟩ | ⟨hw, hhop⟩⟩ := hop_cases hold env
    · have htwo' := (htwo.bounces env.between).advance pools
      rw [hhop] at hflags ⊢
      exact .falls hflags rfl ⟨hcut.1, hcut.2⟩
        ⟨⟨ck, nk, hadv, advance_guards_ne hne _ _⟩, htwo'⟩
    · have htwo' := (htwo.bounces env.between).advance pools
      have hne' := advance_guards_ne hne env.between pools
      set box := (f.box.bounces env.between).advance pools
      rw [hhop] at hflags ⊢
      obtain ⟨e, hrot, -⟩ | ⟨key, pages, hkey, -, ⟨e, -, he, -⟩ | ⟨-, hrot⟩⟩ :=
        rotate_cases P env nk box
      · -- the box has been promoted, and the guard that was current is left over
        rw [hrot] at hflags ⊢
        obtain ⟨old, hget, hopen⟩ := htwo'.current
        exact .stopped hflags rfl ⟨hcut.1, hcut.2⟩ (hadv.promote hw)
          ⟨_, old, hget, hopen, hne', hne'⟩
      · exact nomatch hcall.symm.trans he
      · rw [hrot] at hflags ⊢
        exact .falls hflags rfl ⟨hcut.1, hcut.2⟩
          ⟨⟨nk, key, hadv.install_retire hw hne' (nextKey_valid hkey) pages,
              Nat.ne_of_lt hadv.nextGuard_lt⟩,
            htwo'.install_retire (SplitKeyGuard.open_new P key pages)⟩

theorem collapsed_bounce {box : ChunkedSecureBox} {i : ℕ}
    (h : ∃ g, box.guards[i]? = some g ∧ g.Collapsed) (cell : ℕ × ℕ) :
    ∃ g, (box.bounce cell).guards[i]? = some g ∧ g.Collapsed := by
  obtain ⟨g, hg, hcollapsed⟩ := h
  have hget : (box.bounce cell).guards[i]?
      = some (if cell.1 = i then g.bounceCell cell.2 else g) := by
    rw [bounce, List.getElem?_modify, hg]
    rfl
  refine ⟨_, hget, ?_⟩
  split
  · exact hcollapsed.bounceCell _
  · exact hcollapsed

theorem Leftover.bounce {box : ChunkedSecureBox} (h : Leftover box) (cell : ℕ × ℕ) :
    Leftover (box.bounce cell) := by
  obtain ⟨i, g, hg, hopen, hi, hj⟩ := h
  obtain ⟨g', hg', hopen'⟩ := open_bounce ⟨g, hg, hopen⟩ cell
  exact ⟨i, g', hg', hopen', hi, hj⟩

theorem Falling.Lives.bounce (h : f.Lives P) (cell : ℕ × ℕ) :
    Falling.Lives P { f with box := f.box.bounce cell } := by
  cases h with
  | falls hremoved hstopped hcut htidy =>
    obtain ⟨⟨ck, nk, hold, hne⟩, htwo⟩ := htidy
    exact .falls hremoved hstopped ⟨hcut.1, hcut.2⟩
      ⟨⟨ck, nk, hold.bounce cell, hne⟩, htwo.bounce cell⟩
  | stopped hremoved hstopped hcut hold hleft =>
    exact .stopped hremoved hstopped ⟨hcut.1, hcut.2⟩ (hold.bounce cell) (hleft.bounce cell)
  | dead hdead hleft hall =>
    refine .dead ⟨hdead.removed, collapsed_bounce hdead.current cell,
      collapsed_bounce hdead.next cell, hdead.pools⟩ (fun hs => (hleft hs).bounce cell)
      fun hs g hg => ?_
    obtain ⟨i, hi⟩ := List.getElem?_of_mem hg
    obtain ⟨old, hold, rfl | rfl⟩ := bounce_guard f.box.guards cell hi
    · exact hall hs g (List.mem_of_getElem? hold)
    · exact (hall hs old (List.mem_of_getElem? hold)).bounceCell _

theorem Falling.Lives.pause (h : f.Lives P) (paused : Bool) :
    Falling.Lives P { f with box := { f.box with paused := paused } } := by
  cases h with
  | falls hremoved hstopped hcut htidy =>
    obtain ⟨hreg, htwo⟩ := htidy
    exact .falls hremoved hstopped ⟨hcut.1, hcut.2⟩
      ⟨hreg.paused paused, ⟨htwo.distinct, htwo.current, htwo.next, htwo.others⟩⟩
  | stopped hremoved hstopped hcut hold hleft =>
    exact .stopped hremoved hstopped ⟨hcut.1, hcut.2⟩ (hold.paused paused) hleft
  | dead hdead hleft hall =>
    exact .dead ⟨hdead.removed, hdead.current, hdead.next, hdead.pools⟩ hleft hall

/-- `collapse` reaches the guards in use, and no other. -/
theorem collapse_guard (box : ChunkedSecureBox) (i : ℕ) :
    (∀ g, box.guards[i]? = some g → i = box.currentGuard ∨ i = box.nextGuard →
      ∃ g', box.collapse.guards[i]? = some g' ∧ g'.Collapsed) ∧
    (i ≠ box.currentGuard → i ≠ box.nextGuard → box.collapse.guards[i]? = box.guards[i]?) := by
  have hget : box.collapse.guards[i]? = (box.guards[i]?.map fun g =>
      if box.currentGuard = i then g.collapse else g).map fun g =>
        if box.nextGuard = i then g.collapse else g := by
    rw [collapse, List.getElem?_modify, List.getElem?_modify]
    rfl
  refine ⟨fun g hg hi => ?_, fun hi hj => ?_⟩
  · rw [hget, hg]
    refine ⟨_, rfl, ?_⟩
    dsimp only
    by_cases hj : box.nextGuard = i
    · rw [if_pos hj]
      exact SplitKeyGuard.collapsed_collapse _
    · rw [if_neg hj, if_pos (hi.resolve_right (Ne.symm hj)).symm]
      exact SplitKeyGuard.collapsed_collapse _
  · rw [hget]
    cases box.guards[i]? with
    | none => rfl
    | some g => simp [Ne.symm hi, Ne.symm hj]

theorem dead_collapse {box : ChunkedSecureBox} {g g' : SplitKeyGuard}
    (hcurrent : box.guards[box.currentGuard]? = some g)
    (hnext : box.guards[box.nextGuard]? = some g') : Dead box.collapse where
  removed := rfl
  current := (collapse_guard box _).1 g hcurrent (Or.inl rfl)
  next := (collapse_guard box _).1 g' hnext (Or.inr rfl)
  pools := by
    intro pool hpool
    obtain ⟨old, -, rfl⟩ := List.mem_map.mp hpool
    rfl

theorem Leftover.collapse {box : ChunkedSecureBox} (h : Leftover box) : Leftover box.collapse := by
  obtain ⟨i, g, hg, hopen, hi, hj⟩ := h
  exact ⟨i, g, ((collapse_guard box i).2 hi hj).trans hg, hopen, hi, hj⟩

/-- What is in use is collapsed, and nothing else. -/
theorem Falling.Lives.collapse (h : f.Lives P) (hremoved : f.box.removed = false) :
    Falling.Lives P { f with box := f.box.collapse } := by
  cases h with
  | falls _ hstopped _ htidy =>
    obtain ⟨-, htwo⟩ := htidy
    obtain ⟨current, hcurrent, -⟩ := htwo.current
    obtain ⟨next, hnext, -⟩ := htwo.next
    refine .dead (dead_collapse hcurrent hnext) (fun hs => nomatch hs.symm.trans hstopped)
      fun _ g hg => ?_
    obtain ⟨i, hi⟩ := List.getElem?_of_mem hg
    by_cases hused : i = f.box.currentGuard ∨ i = f.box.nextGuard
    · obtain ⟨old, hold⟩ : ∃ old, f.box.guards[i]? = some old := by
        rcases hused with rfl | rfl
        · exact ⟨current, hcurrent⟩
        · exact ⟨next, hnext⟩
      obtain ⟨g', hg', hcollapsed⟩ := (collapse_guard f.box i).1 old hold hused
      rwa [Option.some.inj (hi.symm.trans hg')]
    · obtain ⟨hc, hn⟩ := not_or.mp hused
      exact htwo.others i g (((collapse_guard f.box i).2 hc hn).symm.trans hi) hc hn
  | stopped _ hstopped _ hold hleft =>
    obtain ⟨current, hcurrent, -⟩ := reconstruct_eq_ok.mp hold.current
    obtain ⟨next, hnext, -⟩ := reconstruct_eq_ok.mp hold.next
    exact .dead (dead_collapse hcurrent hnext) (fun _ => hleft.collapse)
      fun hs => nomatch hs.symm.trans hstopped
  | dead hdead => exact nomatch hdead.removed.symm.trans hremoved

/-! ### Reading a box -/

/-- A box that has not been collapsed holds its data. -/
theorem Falling.Lives.holds (h : f.Lives P) (hremoved : f.box.removed = false) :
    ∃ plains ck nk, f.Cut plains ∧ Holds P plains ck nk f.box := by
  cases h with
  | falls _ _ hcut htidy =>
    obtain ⟨⟨ck, nk, hold, -⟩, -⟩ := htidy
    exact ⟨_, ck, nk, hcut, hold⟩
  | stopped _ _ hcut hold => exact ⟨_, _, _, hcut, hold⟩
  | dead hdead => exact nomatch hdead.removed.symm.trans hremoved

theorem reconstruct_collapsed {g : SplitKeyGuard} (h : g.Collapsed) :
    ∃ e, g.reconstruct P = .error e := by
  obtain ⟨cells, removed⟩ := g
  cases cells with
  | nil => exact ⟨.lzmaError, P.decompress_nil⟩
  | cons c cells =>
    have hread : c.read = .error .valueError := if_pos (h.closed c List.mem_cons_self)
    refine ⟨.valueError, ?_⟩
    rw [SplitKeyGuard.reconstruct, List.mapM_cons, hread]
    rfl

theorem Falling.Lives.dead_of_removed (h : f.Lives P) (hremoved : f.box.removed = true) :
    Dead f.box := by
  cases h with
  | falls hr => exact nomatch hr.symm.trans hremoved
  | stopped hr => exact nomatch hr.symm.trans hremoved
  | dead hdead => exact hdead

/-- Whichever way a retrieval takes, it gets the data; what it gets encrypted decrypts to it. -/
structure Gives (P : Primitives) (data : Bytes) (box : ChunkedSecureBox) : Prop where
  snapshot : ∀ between, (box.snapshot P between).2 = .ok data
  stream : ∀ between, ∃ pieces, (box.streamTo P between fun _ => .ok ()).2 = (pieces, .ok ()) ∧
    pieces.flatten = data
  wrapped : ∀ between transitKey nonces, ValidKey transitKey → ∃ frames,
    (box.streamToWrapped P between transitKey nonces fun _ => .ok ()).2 = (frames, .ok ()) ∧
      ∃ pieces, decryptWrappedFile P transitKey frames.flatten = (pieces, .ok ()) ∧
        pieces.flatten = data

/-- It raises, and has written nothing. -/
structure Silent (P : Primitives) (box : ChunkedSecureBox) : Prop where
  snapshot : ∀ between, ∃ e, (box.snapshot P between).2 = .error e
  stream : ∀ between wrap write, ∃ e, (box.stream P between wrap write).2 = ([], .error e)

theorem gives_of_holds {plains : List Bytes} {ck nk : Bytes} {box : ChunkedSecureBox}
    (h : Holds P plains ck nk box) (hle : ∀ p ∈ plains, p.length ≤ defaultChunkSize) :
    Gives P plains.flatten box where
  snapshot := h.snapshot
  stream between := ⟨_, h.streamTo between, flatten_upToEnd plains⟩
  wrapped between transitKey nonces hkey := by
    have hsize : ∀ p ∈ plains, p.length + 16 < 2 ^ 32 := by
      intro p hp
      have := hle p hp
      rw [defaultChunkSize] at this
      omega
    obtain ⟨frames, hstream⟩ := h.streamToWrapped hsize hkey between nonces
    obtain ⟨fs, rfl, hfs⟩ := h.streamToWrapped_ok hstream
    exact ⟨_, hstream, _, (decryptWrappedFile_carries hfs).2, flatten_upToEnd plains⟩

/-- A box that has been collapsed has no key. -/
theorem Dead.silent {box : ChunkedSecureBox} (h : Dead box) : Silent P box := by
  obtain ⟨g, hg, hcollapsed⟩ := h.current
  obtain ⟨e, he⟩ := reconstruct_collapsed (P := P) hcollapsed
  have hkeys : ∀ between, readKeys P between { box with paused := true }
      = ({ box with paused := true }, .error e) := by
    intro between
    have hkey : ChunkedSecureBox.reconstruct P { box with paused := true } box.currentGuard
        = .error e := by
      rw [ChunkedSecureBox.reconstruct, pyIndex_natCast hg]
      exact he
    rw [readKeys, hkey]
  refine ⟨fun between => ⟨e, ?_⟩, fun between wrap write => ⟨e, ?_⟩⟩
  · rw [ChunkedSecureBox.snapshot, hkeys]
  · rw [ChunkedSecureBox.stream, hkeys]

theorem Silent.not_gives {box : ChunkedSecureBox} {data : Bytes} (h : Silent P box) :
    ¬ Gives P data box := by
  intro hgives
  obtain ⟨e, he⟩ := h.snapshot []
  cases (hgives.snapshot []).symm.trans he

/-- A box that has been collapsed keeps a guard exactly when a hop of it had raised. -/
theorem Falling.Lives.collapsed_iff (h : f.Lives P) (hremoved : f.box.removed = true) :
    (∀ g ∈ f.box.guards, g.Collapsed) ↔ f.stopped = false := by
  cases h with
  | falls hr => exact nomatch hr.symm.trans hremoved
  | stopped hr => exact nomatch hr.symm.trans hremoved
  | dead _ hleft hall =>
    refine ⟨fun hcollapsed => ?_, hall⟩
    rw [← Bool.not_eq_true]
    intro hs
    obtain ⟨i, g, hg, hopen, -⟩ := hleft hs
    exact hopen.not_collapsed (hcollapsed g (List.mem_of_getElem? hg))

end SecureFiles
