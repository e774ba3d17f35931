/-
Rotations that raise half-way.

`_do_one_hop_locked` makes the next guard current before it asks for a new key, and
collapses the old guard after the callback.  So an exception out of the fetch or out of
the new guard leaves one guard in both places, which the next rotation collapses, and an
exception out of the callback leaves the old guard open with nothing that refers to it.

* `Smooth`: the hop does not rotate, or nothing that the rotation calls raises;
* `rotation_atomic_iff`: a box is as it should be after every call of a run exactly when
  every call was smooth;
* `rotation_not_atomic`: one lost fetch, and a hop later the data is gone.
-/
import Mathlib
import VStorage.RotationSchedule

/-! ### Guards in use and guards collapsed -/

namespace SplitKeyGuard

/-- Nothing of the guard has been collapsed. -/
structure Open (g : SplitKeyGuard) : Prop where
  removed : g.removed = false
  closed : ∀ c ∈ g.cells, c.closed = false

/-- All of it has. -/
structure Collapsed (g : SplitKeyGuard) : Prop where
  removed : g.removed = true
  closed : ∀ c ∈ g.cells, c.closed = true

theorem open_new (P : Primitives) (key : Bytes) (mmap : ℕ → ℕ × ℕ) : (new P key mmap).Open where
  removed := rfl
  closed := by
    intro c hc
    obtain ⟨i, hi, rfl⟩ := List.mem_mapIdx.mp hc
    rfl

theorem collapsed_collapse (g : SplitKeyGuard) : g.collapse.Collapsed where
  removed := rfl
  closed := by
    intro c hc
    obtain ⟨d, -, rfl⟩ := List.mem_map.mp hc
    rfl

theorem Open.not_collapsed {g : SplitKeyGuard} (h : g.Open) : ¬ g.Collapsed := fun hc =>
  Bool.false_ne_true (h.removed.symm.trans hc.removed)

/-- A bounce opens and closes nothing. -/
theorem mem_cells_bounceCell {g : SplitKeyGuard} {idx : ℕ} {c : RawCell}
    (hc : c ∈ (g.bounceCell idx).cells) : ∃ d ∈ g.cells, c.closed = d.closed := by
  unfold bounceCell at hc
  split at hc
  · exact ⟨c, hc, rfl⟩
  · obtain ⟨i, hi⟩ := List.getElem?_of_mem hc
    rw [List.getElem?_modify] at hi
    obtain ⟨d, hd, hmap⟩ := Option.map_eq_some_iff.mp hi
    refine ⟨d, List.mem_of_getElem? hd, ?_⟩
    rw [← hmap]
    split
    · unfold RawCell.bounce
      cases d.active <;> rfl
    · rfl

theorem Open.bounceCell {g : SplitKeyGuard} (h : g.Open) (idx : ℕ) : (g.bounceCell idx).Open where
  removed := (removed_bounceCell g idx).trans h.removed
  closed := by
    intro c hc
    obtain ⟨d, hd, hsame⟩ := mem_cells_bounceCell hc
    exact hsame.trans (h.closed d hd)

theorem Collapsed.bounceCell {g : SplitKeyGuard} (h : g.Collapsed) (idx : ℕ) :
    (g.bounceCell idx).Collapsed where
  removed := (removed_bounceCell g idx).trans h.removed
  closed := by
    intro c hc
    obtain ⟨d, hd, hsame⟩ := mem_cells_bounceCell hc
    exact hsame.trans (h.closed d hd)

end SplitKeyGuard

namespace ChunkedSecureBox

/-! ### The property and the condition -/

/-- Two distinct guards in use, and every other guard the box has made collapsed. -/
structure TwoGuards (box : ChunkedSecureBox) : Prop where
  distinct : box.currentGuard ≠ box.nextGuard
  current : ∃ g, box.guards[box.currentGuard]? = some g ∧ g.Open
  next : ∃ g, box.guards[box.nextGuard]? = some g ∧ g.Open
  others : ∀ i g, box.guards[i]? = some g → i ≠ box.currentGuard → i ≠ box.nextGuard →
    g.Collapsed

/-- What a caller may expect of a box built from `data`. -/
def Proper (P : Primitives) (data : Bytes) (box : ChunkedSecureBox) : Prop :=
  box.TwoGuards ∧ ∀ between, (box.snapshot P between).2 = .ok data

/-- One call of `_do_one_hop_locked`, however it ends, or one bounce of a key cell. -/
def apply (P : Primitives) (box : ChunkedSecureBox) : Event → ChunkedSecureBox
  | .hop env => (box.hop P env).box
  | .bounce cell => box.bounce cell

def after (P : Primitives) (box : ChunkedSecureBox) (events : List Event) : ChunkedSecureBox :=
  events.foldl (apply P) box

/-- The hop does not rotate, or the fetch, the mapping and the callback return. -/
def Smooth (box : ChunkedSecureBox) : Event → Prop
  | .hop env => box.Completing →
      (box.trustGroup = true → ∃ external, env.fetch = .ok external) ∧
      (∃ pages, env.mmap = .ok pages) ∧ (box.onNewGuard = true → env.callback = .ok ())
  | .bounce _ => True

/-! ### One step -/

variable {P : Primitives} {plains : List Bytes} {box : ChunkedSecureBox}

/-- After a bounce a guard is as it was, or one of its cells has bounced. -/
theorem bounce_guard (guards : List SplitKeyGuard) (cell : ℕ × ℕ) {i : ℕ} {g : SplitKeyGuard}
    (hg : (guards.modify cell.1 (·.bounceCell cell.2))[i]? = some g) :
    ∃ old, guards[i]? = some old ∧ (g = old ∨ g = old.bounceCell cell.2) := by
  rw [List.getElem?_modify] at hg
  obtain ⟨old, hold, hmap⟩ := Option.map_eq_some_iff.mp hg
  refine ⟨old, hold, ?_⟩
  rw [← hmap]
  by_cases hi : cell.1 = i
  · exact Or.inr (if_pos hi)
  · exact Or.inl (if_neg hi)

/-- An open guard stays open when a cell of any guard bounces. -/
theorem open_bounce {i : ℕ} (h : ∃ g, box.guards[i]? = some g ∧ g.Open) (cell : ℕ × ℕ) :
    ∃ g, (box.bounce cell).guards[i]? = some g ∧ g.Open := by
  obtain ⟨old, hold, ho⟩ := h
  have hlt : i < (box.bounce cell).guards.length := by
    show i < (box.guards.modify cell.1 (·.bounceCell cell.2)).length
    rw [List.length_modify]
    exact (List.getElem?_eq_some_iff.mp hold).1
  refine ⟨_, List.getElem?_eq_getElem hlt, ?_⟩
  obtain ⟨old', hold', hsame | hsame⟩ :=
    bounce_guard box.guards cell (List.getElem?_eq_getElem hlt)
  · rw [hsame, Option.some.inj (hold'.symm.trans hold)]
    exact ho
  · rw [hsame, Option.some.inj (hold'.symm.trans hold)]
    exact ho.bounceCell _

theorem TwoGuards.bounce (h : box.TwoGuards) (cell : ℕ × ℕ) : (box.bounce cell).TwoGuards := by
  refine ⟨h.distinct, open_bounce h.current cell, open_bounce h.next cell, ?_⟩
  intro i g hg hi hj
  obtain ⟨old, hold, rfl | rfl⟩ := bounce_guard box.guards cell hg
  · exact h.others i g hold hi hj
  · exact (h.others i old hold hi hj).bounceCell _

theorem TwoGuards.bounces (h : box.TwoGuards) (cells : List (ℕ × ℕ)) :
    (box.bounces cells).TwoGuards := by
  induction cells generalizing box with
  | nil => exact h
  | cons cell cells ih => exact ih (h.bounce cell)

/-- Moving a chunk over touches no guard. -/
theorem TwoGuards.advance (h : box.TwoGuards) (pools : List ChunkPool) :
    (box.advance pools).TwoGuards := ⟨h.distinct, h.current, h.next, h.others⟩

/-- A rotation that goes through leaves two guards. -/
theorem TwoGuards.install_retire (h : box.TwoGuards) {guard : SplitKeyGuard} (hguard : guard.Open) :
    ((box.install guard).retire box.currentGuard).TwoGuards := by
  obtain ⟨old, hold, -⟩ := h.current
  obtain ⟨next, hnext, hopen⟩ := h.next
  have hlt := (List.getElem?_eq_some_iff.mp hold).1
  have hlt' := (List.getElem?_eq_some_iff.mp hnext).1
  have hget : ∀ i : ℕ, ((box.install guard).retire box.currentGuard).guards[i]?
      = ((box.guards ++ [guard])[i]?).map fun g =>
        if box.currentGuard = i then g.collapse else g := by
    intro i
    show ((box.guards ++ [guard]).modify box.currentGuard SplitKeyGuard.collapse)[i]? = _
    rw [List.getElem?_modify]
    rfl
  refine ⟨Nat.ne_of_lt hlt', ⟨next, ?_, hopen⟩, ⟨guard, ?_, hguard⟩, ?_⟩
  · show ((box.install guard).retire box.currentGuard).guards[box.nextGuard]? = some next
    rw [hget, List.getElem?_append_left hlt', hnext]
    simp [h.distinct]
  · show ((box.install guard).retire box.currentGuard).guards[box.guards.length]? = some guard
    rw [hget, List.getElem?_concat_length]
    simp [Nat.ne_of_lt hlt]
  · intro i g hg hi hj
    change i ≠ box.nextGuard at hi
    change i ≠ box.guards.length at hj
    rw [hget] at hg
    obtain ⟨g', hg', rfl⟩ := Option.map_eq_some_iff.mp hg
    by_cases hcurrent : box.currentGuard = i
    · rw [if_pos hcurrent]
      exact g'.collapsed_collapse
    · rw [if_neg hcurrent]
      have hlt : i < box.guards.length := by
        have hi := (List.getElem?_eq_some_iff.mp hg').1
        rw [List.length_append, List.length_singleton] at hi
        omega
      rw [List.getElem?_append_left hlt] at hg'
      exact h.others i g' hg' (Ne.symm hcurrent) hi

/-- After a callback that raised, the old guard is open and forgotten. -/
theorem TwoGuards.not_install (h : box.TwoGuards) (guard : SplitKeyGuard) :
    ¬ (box.install guard).TwoGuards := by
  intro hinstall
  obtain ⟨old, hold, hopen⟩ := h.current
  have hlt := (List.getElem?_eq_some_iff.mp hold).1
  have hget : (box.install guard).guards[box.currentGuard]? = some old := by
    show (box.guards ++ [guard])[box.currentGuard]? = some old
    rw [List.getElem?_append_left hlt, hold]
  exact hopen.not_collapsed
    (hinstall.others _ old hget h.distinct (Nat.ne_of_lt hlt))

/-- A box that holds its data between two guards. -/
def Tidy (P : Primitives) (plains : List Bytes) (box : ChunkedSecureBox) : Prop :=
  Regular P plains box ∧ box.TwoGuards

/-- **One hop.**  A smooth hop keeps a box tidy; any other leaves it without its two
guards. -/
theorem Tidy.hop (h : Tidy P plains box) (env : HopEnv) :
    (Smooth box (.hop env) → Tidy P plains (box.hop P env).box) ∧
      ((box.hop P env).box.TwoGuards → Smooth box (.hop env)) := by
  obtain ⟨hreg, htwo⟩ := h
  obtain ⟨ck, nk, hold, hne⟩ := id hreg
  obtain ⟨pools, hadv, hcase⟩ := hop_cases hold env
  have htwo₁ := (htwo.bounces env.between).advance pools
  have hne₁ := advance_guards_ne hne env.between pools
  set box₁ := (box.bounces env.between).advance pools with hbox₁
  have htrust : box₁.trustGroup = box.trustGroup := trustGroup_bounces box env.between
  have hnew : box₁.onNewGuard = box.onNewGuard := by
    rw [hbox₁, bounces_eq]
    rfl
  obtain ⟨hw, hhop⟩ | ⟨hw, hhop⟩ := hcase
  · rw [hhop]
    refine ⟨fun _ => ⟨⟨ck, nk, hadv, hne₁⟩, htwo₁⟩, fun _ hc => ?_⟩
    exact absurd (wrapped_iff_completing.mpr hc) hw
  · have hc : box.Completing := wrapped_iff_completing.mp hw
    rw [hhop]
    obtain ⟨e, hrot, herr⟩ | ⟨key, pages, hkey, hmmap, ⟨e, hasked, hcall, hrot⟩ | ⟨hcall, hrot⟩⟩ :=
      rotate_cases P env nk box₁
    · -- the box has been promoted, and one guard is in both places
      rw [hrot]
      refine ⟨fun hsmooth => ?_, fun hpromoted => absurd rfl hpromoted.distinct⟩
      obtain ⟨hfetch, ⟨pages, hpages⟩, -⟩ := hsmooth hc
      rcases herr with herr | ⟨-, herr⟩
      · obtain ⟨key, hkey⟩ := nextKey_ok (P := P) nk (htrust ▸ hfetch)
        exact nomatch hkey.symm.trans herr
      · exact nomatch hpages.symm.trans herr
    · -- the old guard has been left behind
      rw [hrot]
      refine ⟨fun hsmooth => ?_, fun hinstalled => absurd hinstalled (htwo₁.not_install _)⟩
      exact nomatch ((hsmooth hc).2.2 (hnew ▸ hasked)).symm.trans hcall
    · have hok : (box.hop P env).outcome = .ok () := by rw [hhop, hrot]
      have hregular := hreg.hop hok
      rw [hhop, hrot] at hregular
      rw [hrot]
      have hopen := SplitKeyGuard.open_new P key pages
      refine ⟨fun _ => ⟨hregular, htwo₁.install_retire hopen⟩,
        fun _ _ => ⟨fun ht => ?_, ⟨pages, hmmap⟩, fun ha => hcall (hnew ▸ ha)⟩⟩
      rw [nextKey, if_pos (htrust.trans ht)] at hkey
      obtain ⟨external, hexternal, -⟩ := bind_eq_ok.mp hkey
      exact ⟨external, hexternal⟩

/-- One event of a tidy box, smooth or not. -/
theorem Tidy.apply (h : Tidy P plains box) (event : Event) :
    (Smooth box event → Tidy P plains (apply P box event)) ∧
      ((ChunkedSecureBox.apply P box event).TwoGuards → Smooth box event) := by
  cases event with
  | hop env => exact h.hop env
  | bounce cell =>
    obtain ⟨⟨ck, nk, hold, hne⟩, htwo⟩ := h
    exact ⟨fun _ => ⟨⟨ck, nk, hold.bounce cell, hne⟩, htwo.bounce cell⟩, fun _ => trivial⟩

theorem Tidy.proper (h : Tidy P plains box) : Proper P plains.flatten box := by
  obtain ⟨⟨ck, nk, hold, -⟩, htwo⟩ := h
  exact ⟨htwo, hold.snapshot⟩

theorem tidy_construct {source : Source} {env : InitEnv} {data : Bytes} {chunkSize : ℕ}
    {trustGroup onNewGuard : Bool}
    (h : construct source P env data chunkSize trustGroup onNewGuard = .ok box) :
    ∃ plains, plains.flatten = data ∧ Tidy P plains box := by
  obtain ⟨plains, ck, nk, hflat, -, hold, hne⟩ := construct_ok h
  refine ⟨plains, hflat, ⟨ck, nk, hold, hne⟩, ?_⟩
  obtain ⟨next, pools, chunks, -, rfl⟩ := construct_shape h
  refine ⟨Nat.zero_ne_one, ⟨_, rfl, SplitKeyGuard.open_new P _ _⟩,
    ⟨_, rfl, SplitKeyGuard.open_new P _ _⟩, ?_⟩
  -- there are no others yet
  intro i g hg hi hj
  have hlt := (List.getElem?_eq_some_iff.mp hg).1
  change i < 2 at hlt
  change i ≠ 0 at hi
  change i ≠ 1 at hj
  omega

/-! ### Whole runs -/

theorem after_concat (P : Primitives) (box : ChunkedSecureBox) (events : List Event) (e : Event) :
    after P box (events ++ [e]) = apply P (after P box events) e := by
  rw [after, List.foldl_append]
  rfl

/-- **Rotations under failure.**  In a run of calls of `_do_one_hop_locked`, any of which
may raise, and of bounces, a box has two distinct open guards, no other open guard, and its
data after every call if and only if no call raised in its rotation. -/
theorem rotation_atomic_iff (P : Primitives) {source : Source} {env : InitEnv} {data : Bytes}
    {chunkSize : ℕ} {trustGroup onNewGuard : Bool} {box₀ : ChunkedSecureBox}
    (hbuilt : construct source P env data chunkSize trustGroup onNewGuard = .ok box₀)
    (events : List Event) :
    (∀ pre, pre <+: events → Proper P data (after P box₀ pre)) ↔
      ∀ pre e, pre ++ [e] <+: events → Smooth (after P box₀ pre) e := by
  obtain ⟨plains, rfl, h₀⟩ := tidy_construct hbuilt
  -- either side keeps the box tidy, and a tidy box has the one for the other
  have hrun : ∀ pre, (∀ pre' e, pre' ++ [e] <+: pre → Tidy P plains (after P box₀ pre') →
      Smooth (after P box₀ pre') e) → Tidy P plains (after P box₀ pre) := by
    intro pre
    induction pre using List.reverseRecOn with
    | nil => exact fun _ => h₀
    | append_singleton pre e ih =>
      intro hsmooth
      have htidy := ih fun pre' e' hpre' =>
        hsmooth pre' e' (hpre'.trans (List.prefix_append pre [e]))
      rw [after_concat]
      exact (htidy.apply e).1 (hsmooth pre e (List.prefix_refl _) htidy)
  constructor
  · intro hproper pre e hpre
    have htidy : Tidy P plains (after P box₀ pre) := by
      refine hrun pre fun pre' e' hpre' htidy' => (htidy'.apply e').2 ?_
      rw [← after_concat]
      exact (hproper _ (hpre'.trans ((List.prefix_append pre [e]).trans hpre))).1
    refine (htidy.apply e).2 ?_
    rw [← after_concat]
    exact (hproper _ hpre).1
  · intro hsmooth pre hpre
    exact (hrun pre fun pre' e' hpre' _ => hsmooth pre' e' (hpre'.trans hpre)).proper

/-- A hop whose fetch is given, for the sample primitives. -/
def sampleFetch (fetch : Except PyError Bytes) : Event :=
  .hop ⟨[], ⟨List.replicate 12 9, rfl⟩, fetch, .ok fun i => (200 + 2 * i, 201 + 2 * i), .ok ()⟩

theorem rotation_atomic_iff_sample :
    ∃ box₀, construct .bytes Primitives.sample InitEnv.sample [7] 1 true false = .ok box₀ ∧
      ((∀ pre, pre <+: [sampleFetch (.ok [1])] →
          Proper Primitives.sample [7] (after Primitives.sample box₀ pre)) ↔
        ∀ pre e, pre ++ [e] <+: [sampleFetch (.ok [1])] →
          Smooth (after Primitives.sample box₀ pre) e) := by
  obtain ⟨box₀, -, -, -, hbuilt, -⟩ := @construct_spec Primitives.sample .bytes
    InitEnv.sample [7] 1 (by decide) true false
    fun _ => ⟨[1, 2, 3], rfl⟩
  exact ⟨box₀, hbuilt, rotation_atomic_iff Primitives.sample hbuilt _⟩

/-- What is left of a box of one chunk after a hop whose fetch raises, and after one more
whose fetch returns: are the guards distinct, and what does `snapshot` say? -/
def wreck : Except PyError (Bool × Bool × Except PyError Bytes) :=
  (construct .bytes Primitives.sample InitEnv.sample [7] 1 true false).map fun box₀ =>
    let box₁ := after Primitives.sample box₀ [sampleFetch (.error .valueError)]
    let box₂ := after Primitives.sample box₁ [sampleFetch (.ok [1])]
    (decide (box₁.currentGuard = box₁.nextGuard),
      (box₂.guards[box₂.currentGuard]?.map SplitKeyGuard.removed).getD false,
      (box₂.snapshot Primitives.sample []).2)

/-- One fetch that raises, and the box has one guard in both places; the next rotation
collapses it while it is current, and `snapshot` raises from then on. -/
theorem rotation_not_atomic :
    wreck = .ok (true, true, .error .valueError) ∧
      ∃ box₀, construct .bytes Primitives.sample InitEnv.sample [7] 1 true false = .ok box₀ ∧
        ¬ ∀ pre, pre <+: [sampleFetch (.error .valueError)] →
          Proper Primitives.sample [7] (after Primitives.sample box₀ pre) := by
  have hwreck : wreck = .ok (true, true, .error .valueError) := by decide +kernel
  refine ⟨hwreck, ?_⟩
  obtain ⟨box₀, -, -, -, hbuilt, -⟩ := @construct_spec Primitives.sample .bytes
    InitEnv.sample [7] 1 (by decide) true false
    fun _ => ⟨[1, 2, 3], rfl⟩
  refine ⟨box₀, hbuilt, fun hproper => ?_⟩
  have htwo := (hproper _ (List.prefix_refl _)).1
  rw [wreck, hbuilt] at hwreck
  exact htwo.distinct (of_decide_eq_true (Prod.mk.inj (Except.ok.inj hwreck)).1)

end ChunkedSecureBox
