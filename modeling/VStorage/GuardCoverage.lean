/-
Which guards the watchdog knows.

The entries of a file that `save` registers stay as they are; the slot of a box holds the
pages of the last guard that it made.  So after the first rotation since its guards were
read, a box has its current guard among the former and its next guard in the latter, and
the second rotation overwrites the slot while the guard in it becomes current.

* `guards_covered`: in a run with room in the table in which no box is further than that,
  the pages of both guards of every box of a held file are in the table.
* `current_guard_lost`: after two rotations they are not.
-/
import Mathlib
import VStorage.ProcessWatchdog

open ChunkedSecureBox (HopEnv InitEnv Source construct Regular)

namespace SecureVirtualStorage

open ProcessWatchdog (maxRegions store store_inside store_outside)

/-! ### Slots -/

/-- Position `k` belongs to the slot. -/
def Slot.Has (slot : Slot) (k : ℕ) : Prop := slot.index ≤ k ∧ k < slot.index + slot.size

theorem has_natCast {i size k : ℕ} : (⟨i, size⟩ : Slot).Has k ↔ i ≤ k ∧ k < i + size := by
  rw [Slot.Has]
  dsimp only
  omega

/-- The slot lies below the cursor. -/
structure Slot.InTable (slot : Slot) (w : ProcessWatchdog) : Prop where
  nonneg : 0 ≤ slot.index
  le : slot.index + slot.size ≤ w.regionCount

theorem Slot.InTable.lt {slot : Slot} {w : ProcessWatchdog} (h : slot.InTable w) {k : ℕ}
    (hk : slot.Has k) : k < w.regionCount := by
  have := h.le
  have := hk.2
  omega

/-- What `_on_new_guard` does with the table when it is granted its slot: it writes there and
nowhere else, and all of the regions if they fit. -/
structure Updates (regions : List Region) (w : ProcessWatchdog) (slot : Option Slot)
    (w' : ProcessWatchdog) (slot' : Slot) : Prop where
  count_le : w.regionCount ≤ w'.regionCount
  inTable : slot'.InTable w'
  same : slot = some slot' ∨ slot = none ∧ slot'.index = w.regionCount
  fresh : ∀ k, w.regionCount ≤ k → k < w'.regionCount → slot'.Has k
  frame : ∀ k, ¬ slot'.Has k → w'.regions k = w.regions k
  filled : (∀ old, slot = some old → regions.length = old.size) →
    ∀ k, slot'.Has k → w'.regions k ∈ regions
  written : (∀ old, slot = some old → regions.length = old.size) →
    ∀ region ∈ regions, ∃ k, slot'.Has k ∧ w'.regions k = region

theorem updates_store {regions : List Region} {w w₁ : ProcessWatchdog} {slot : Option Slot} {i : ℕ}
    (hcount : w.regionCount ≤ w₁.regionCount) (hregions : w₁.regions = w.regions)
    (hin : i + regions.length ≤ w₁.regionCount)
    (hsame : slot = some ⟨i, regions.length⟩ ∨ slot = none ∧ i = w.regionCount)
    (hfresh : w₁.regionCount = w.regionCount ∨
      i = w.regionCount ∧ w₁.regionCount = i + regions.length) :
    Updates regions w slot { w₁ with regions := store i regions w₁.regions }
      ⟨i, regions.length⟩ where
  count_le := hcount
  inTable := by
    refine ⟨Int.natCast_nonneg i, ?_⟩
    show (i : ℤ) + regions.length ≤ w₁.regionCount
    exact_mod_cast hin
  same := hsame.imp id fun ⟨h, hi⟩ => ⟨h, congrArg Int.ofNat hi⟩
  fresh k hle hlt := by
    change k < w₁.regionCount at hlt
    rw [has_natCast]
    omega
  frame k hk := by
    rw [← hregions]
    rw [has_natCast] at hk
    exact store_outside (by omega)
  -- position `i + j` holds the region at `j`, and the other way round
  filled _ k hk := by
    obtain ⟨hle, hlt⟩ := has_natCast.mp hk
    obtain ⟨j, rfl⟩ := Nat.exists_eq_add_of_le hle
    have hj : j < regions.length := by omega
    show store i regions w₁.regions (i + j) ∈ regions
    rw [store_inside (List.getElem?_eq_getElem hj)]
    exact List.getElem_mem hj
  written _ region hregion := by
    obtain ⟨j, hj, rfl⟩ := List.mem_iff_getElem.mp hregion
    exact ⟨i + j, has_natCast.mpr ⟨Nat.le_add_right i j, Nat.add_lt_add_left hj i⟩,
      store_inside (List.getElem?_eq_getElem hj)⟩

theorem onNewGuard_updates {regions : List Region} {w : ProcessWatchdog} {slot : Option Slot}
    (htable : ∀ old, slot = some old → old.InTable w)
    (hgranted : asked regions.length w slot ≠ some false) :
    Updates regions w slot (onNewGuard regions w slot).1 (onNewGuard regions w slot).2 := by
  cases slot with
  | none =>
    -- the first rotation takes a slot at the cursor
    obtain ⟨-, hfull⟩ | ⟨hle, hroom⟩ :=
      ProcessWatchdog.reserveSlot_cases w regions.length
    · refine absurd ?_ hgranted
      rw [asked, hfull]
      rfl
    · have hindex : (w.regionCount : ℤ) ≠ -1 := by omega
      have hneg : ¬ (w.regionCount : ℤ) < 0 := by omega
      rw [onNewGuard, takeSlot, hroom]
      dsimp only
      rw [if_pos ⟨hindex, rfl⟩, ProcessWatchdog.updateSlot, if_neg hneg, Int.toNat_natCast]
      exact updates_store (Nat.le_add_right _ _) rfl le_rfl (Or.inr ⟨rfl, rfl⟩)
        (Or.inr ⟨rfl, rfl⟩)
  | some old =>
    have hold := htable old rfl
    obtain ⟨index, size⟩ := old
    obtain ⟨i, rfl⟩ := Int.eq_ofNat_of_zero_le hold.nonneg
    have hindex : (i : ℤ) ≠ -1 := by omega
    have hneg : ¬ (i : ℤ) < 0 := by omega
    rw [onNewGuard, takeSlot]
    dsimp only
    by_cases hsize : regions.length = size
    · subst hsize
      rw [if_pos ⟨hindex, rfl⟩, ProcessWatchdog.updateSlot, if_neg hneg, Int.toNat_natCast]
      have hle : (i : ℤ) + regions.length ≤ w.regionCount := hold.le
      exact updates_store le_rfl rfl (by exact_mod_cast hle) (Or.inl rfl) (Or.inl rfl)
    -- a guard of another size is not written at all
    · rw [if_neg fun h => hsize h.2]
      exact
        { count_le := le_rfl
          inTable := hold
          same := Or.inl rfl
          fresh := fun k hle hlt => absurd hlt (Nat.not_lt.mpr hle)
          frame := fun _ _ => rfl
          filled := fun h => absurd (h _ rfl) hsize
          written := fun h => absurd (h _ rfl) hsize }

theorem onNewGuard_slot (regions : List Region) (w : ProcessWatchdog) (slot : Option Slot) :
    (onNewGuard regions w slot).2 = (takeSlot regions.length w slot).2 := by
  unfold onNewGuard
  dsimp only
  split <;> rfl

/-- After an update that fits, the table covers the new regions and what stood outside the
slot. -/
theorem Updates.covers {regions : List Region} {w w' : ProcessWatchdog} {slot : Option Slot}
    {slot' : Slot} (h : Updates regions w slot w' slot')
    (hfits : ∀ old, slot = some old → regions.length = old.size) {region : Region}
    (hcovers : w'.Covers region) :
    region ∈ regions ∨ ∃ k < w.regionCount, ¬ slot'.Has k ∧ w.regions k = region := by
  obtain ⟨k, hk, rfl⟩ := hcovers
  by_cases hhas : slot'.Has k
  · exact Or.inl (h.filled hfits k hhas)
  · refine Or.inr ⟨k, ?_, hhas, (h.frame k hhas).symm⟩
    by_contra hge
    exact hhas (h.fresh k (Nat.not_lt.mp hge) hk)

/-! ### The condition -/

variable {P : Primitives} {trustGroup : Bool}

/-- The box belongs to a file that has not been forgotten. -/
def State.Kept (s : State) (b : ℕ) : Prop :=
  ∃ file ∈ s.files, b ∈ file.boxes ∧ file.phase ≠ .forgotten

/-- The guards of the box have been read. -/
def Stage.Read : Stage → Prop
  | .guards | .all | .registered => True
  | .unread | .current _ => False

/-- A rotation to a guard of this many pages that `save` has provided for: it does not come
between reading one guard and the other, and is the first since, into a slot of that size. -/
structure Falling.Within (f : Falling) (count : ℕ) : Prop where
  whole : f.stage ≠ .current false
  once : f.stage.Read → f.rotations = 0
  fits : f.stage.Read → ∀ slot, f.slot = some slot → count = slot.size

/-- No request is refused, and the boxes of files that are not forgotten rotate as `save` has
provided for. -/
structure Meets (s : State) (event : Event) : Prop where
  granted : ¬ event.Refused
  within : ∀ b count reserved f, event = .rotates b count reserved → s.Kept b →
    s.boxes[b]? = some f → f.Within count

/-! ### The invariant -/

/-- Position `k` belongs to the slot of the box. -/
def Falling.InSlot (f : Falling) (k : ℕ) : Prop := ∃ slot, f.slot = some slot ∧ slot.Has k

/-- An entry that no rotation overwrites. -/
def State.Fixed (s : State) (region : Region) : Prop :=
  ∃ k < s.watchdog.regionCount, s.watchdog.regions k = region ∧ ∀ f ∈ s.boxes, ¬ f.InSlot k

/-- The region has been collected by `save`, and is such an entry once it is registered. -/
structure State.Anchored (s : State) (f : Falling) (region : Region) : Prop where
  collected : region ∈ f.collected
  fixed : f.stage = .registered → s.Fixed region

theorem Falling.InSlot.of_slot {f f' : Falling} {k : ℕ} (h : f'.InSlot k)
    (hslot : f'.slot = f.slot) : f.InSlot k := by
  obtain ⟨slot, hk, hhas⟩ := h
  exact ⟨slot, hslot ▸ hk, hhas⟩

/-- What is known about the pages of a box. -/
structure Tracked (s : State) (f : Falling) : Prop where
  promoted : f.stage = .current true →
    f.rotating = true ∧ ∀ region ∈ f.box.nextRegions, region ∈ f.collected
  first : f.stage = .current false → f.rotating = false →
    ∀ region ∈ f.box.currentRegions, region ∈ f.collected
  once : f.stage.Read → f.rotations ≤ 1
  current : f.stage.Read → f.rotating = false →
    ∀ region ∈ f.box.currentRegions, s.Anchored f region
  next : f.stage.Read → f.rotations = 0 → ∀ region ∈ f.box.nextRegions, s.Anchored f region
  slot : f.stage.Read → f.rotations = 1 →
    ∀ region ∈ f.box.nextRegions, ∃ k, f.InSlot k ∧ s.watchdog.regions k = region

/-- The invariant: slots do not meet, and every box is as far as the table knows. -/
structure Inv (P : Primitives) (s : State) : Prop where
  regular : ∀ f ∈ s.boxes, f.Falls →
    (∃ plains, Regular P plains f.box) ∧ f.box.onNewGuard = true
  inTable : ∀ f ∈ s.boxes, ∀ slot, f.slot = some slot → slot.InTable s.watchdog
  disjoint : ∀ (b c : ℕ) (f g : Falling), s.boxes[b]? = some f → s.boxes[c]? = some g → b ≠ c →
    ∀ k, f.InSlot k → ¬ g.InSlot k
  tracked : ∀ b f, s.boxes[b]? = some f → s.Kept b → Tracked s f
  held : ∀ file ∈ s.files, file.phase = .held → ∀ b ∈ file.boxes,
    ∃ f, s.boxes[b]? = some f ∧ f.stage = .registered

theorem Inv.inSlot_lt {s : State} (h : Inv P s) {f : Falling} (hf : f ∈ s.boxes) {k : ℕ}
    (hk : f.InSlot k) : k < s.watchdog.regionCount := by
  obtain ⟨slot, hslot, hhas⟩ := hk
  exact (h.inTable f hf slot hslot).lt hhas

theorem Inv.start : Inv P start where
  regular _ hf := nomatch hf
  inTable _ hf := nomatch hf
  disjoint _ _ _ _ hf := nomatch hf
  tracked _ _ hf := nomatch hf
  held _ hfile := nomatch hfile

theorem Tracked.new (s : State) (box : ChunkedSecureBox) : Tracked s (.new box) where
  promoted h := nomatch h
  first h := nomatch h
  once h := h.elim
  current h := h.elim
  next h := h.elim
  slot h := h.elim

/-- Nothing is lost that is fixed or in the slot of the box. -/
theorem Tracked.mono {s t : State} {f : Falling} (h : Tracked s f)
    (hfixed : ∀ region, s.Fixed region → t.Fixed region)
    (hslot : ∀ k, f.InSlot k → t.watchdog.regions k = s.watchdog.regions k) : Tracked t f where
  promoted := h.promoted
  first := h.first
  once := h.once
  current hread hrot region hmem :=
    ⟨(h.current hread hrot region hmem).1,
      fun hreg => hfixed _ ((h.current hread hrot region hmem).2 hreg)⟩
  next hread hrot region hmem :=
    ⟨(h.next hread hrot region hmem).1,
      fun hreg => hfixed _ ((h.next hread hrot region hmem).2 hreg)⟩
  slot hread hrot region hmem := by
    obtain ⟨k, hk, hregion⟩ := h.slot hread hrot region hmem
    exact ⟨k, hk, (hslot k hk).trans hregion⟩

/-- What the invariant says about a box of a held file. -/
theorem Tracked.covers {s : State} {f : Falling} (h : Tracked s f) (hinv : Inv P s)
    (hmem : f ∈ s.boxes) (hstage : f.stage = .registered) {region : Region}
    (hregion : region ∈ f.currentRegions ∨ region ∈ f.box.nextRegions) :
    s.watchdog.Covers region := by
  have hread : f.stage.Read := by rw [hstage]; trivial
  have hfixed : s.Anchored f region → s.watchdog.Covers region := by
    intro hanchored
    obtain ⟨k, hk, hkr, -⟩ := hanchored.fixed hstage
    exact ⟨k, hk, hkr⟩
  have hnext : region ∈ f.box.nextRegions → s.watchdog.Covers region := by
    intro hr
    -- the next guard was collected by `save`, or has been written into the slot since
    rcases Nat.le_one_iff_eq_zero_or_eq_one.mp (h.once hread) with hrot | hrot
    · exact hfixed (h.next hread hrot region hr)
    · obtain ⟨k, hk, hkr⟩ := h.slot hread hrot region hr
      exact ⟨k, hinv.inSlot_lt hmem hk, hkr⟩
  rcases hregion with hr | hr
  · rw [Falling.currentRegions] at hr
    split at hr
    · exact hnext hr
    · rename_i hrot
      exact hfixed (h.current hread (Bool.eq_false_iff.mpr hrot) region hr)
  · exact hnext hr

/-! ### Steps of one box -/

theorem getElem?_setBox_cases {s : State} {b c : ℕ} {f' g : Falling}
    (h : (s.setBox b f').boxes[c]? = some g) : c = b ∧ g = f' ∨ c ≠ b ∧ s.boxes[c]? = some g := by
  rw [State.setBox, List.getElem?_set] at h
  by_cases hc : b = c
  · subst hc
    rw [if_pos rfl] at h
    split at h
    · exact Or.inl ⟨rfl, (Option.some.inj h).symm⟩
    · cases h
  · rw [if_neg hc] at h
    exact Or.inr ⟨Ne.symm hc, h⟩

theorem mem_setBox {s : State} {b : ℕ} {f' g : Falling} (h : g ∈ (s.setBox b f').boxes) :
    g ∈ s.boxes ∨ g = f' := List.mem_or_eq_of_mem_set h

/-- A step of one box takes no registered box out of that stage. -/
theorem registered_setBox {s : State} {b c : ℕ} {f f' : Falling} (hf : s.boxes[b]? = some f)
    (hstage : f.stage = .registered → f'.stage = .registered)
    (h : ∃ g, s.boxes[c]? = some g ∧ g.stage = .registered) :
    ∃ g, (s.setBox b f').boxes[c]? = some g ∧ g.stage = .registered := by
  obtain ⟨g, hg, hgs⟩ := h
  by_cases hcb : b = c
  · subst hcb
    obtain rfl := Option.some.inj (hf.symm.trans hg)
    exact ⟨f', getElem?_setBox f' hf, hstage hgs⟩
  · exact ⟨g, by rw [State.setBox, List.getElem?_set_ne hcb, hg], hgs⟩

/-- A step of one box that leaves the table and its slot alone. -/
theorem Inv.setBox {s : State} {b : ℕ} {f f' : Falling} (h : Inv P s)
    (hf : s.boxes[b]? = some f) (hslot : f'.slot = f.slot)
    (hregular : f'.Falls → (∃ plains, Regular P plains f'.box) ∧ f'.box.onNewGuard = true)
    (hstage : f.stage = .registered → f'.stage = .registered)
    (htracked : Tracked s f → Tracked s f') : Inv P (s.setBox b f') := by
  have hmem := List.mem_of_getElem? hf
  have hin : ∀ k, f'.InSlot k → f.InSlot k := fun _ hk => hk.of_slot hslot
  have hfixed : ∀ region, s.Fixed region → (s.setBox b f').Fixed region := by
    rintro region ⟨k, hk, hregion, hfree⟩
    refine ⟨k, hk, hregion, fun g hg hgk => ?_⟩
    rcases mem_setBox hg with hg | rfl
    · exact hfree g hg hgk
    · exact hfree f hmem (hin k hgk)
  refine
    { regular := fun g hg hfalls => ?_
      inTable := fun g hg slot hgs => ?_
      disjoint := fun c d g g' hg hg' hcd k hk hk' => ?_
      tracked := fun c g hg hkept => ?_
      held := fun file hfile hphase c hc => ?_ }
  · rcases mem_setBox hg with hg | rfl
    · exact h.regular g hg hfalls
    · exact hregular hfalls
  · rcases mem_setBox hg with hg | rfl
    · exact h.inTable g hg slot hgs
    · exact h.inTable f hmem slot (hslot ▸ hgs)
  -- slots do not meet, since the box has the slot that it had
  · rcases getElem?_setBox_cases hg with ⟨rfl, rfl⟩ | ⟨-, hgs⟩
    · rcases getElem?_setBox_cases hg' with ⟨rfl, -⟩ | ⟨-, hgs'⟩
      · exact hcd rfl
      · exact h.disjoint c d f g' hf hgs' hcd k (hin k hk) hk'
    · rcases getElem?_setBox_cases hg' with ⟨rfl, rfl⟩ | ⟨-, hgs'⟩
      · exact h.disjoint c d g f hgs hf hcd k hk (hin k hk')
      · exact h.disjoint c d g g' hgs hgs' hcd k hk hk'
  · rcases getElem?_setBox_cases hg with ⟨rfl, rfl⟩ | ⟨-, hg⟩
    · exact (htracked (h.tracked c f hf hkept)).mono hfixed fun _ _ => rfl
    · exact (h.tracked c g hg hkept).mono hfixed fun _ _ => rfl
  · exact registered_setBox hf hstage (h.held file hfile hphase c hc)

/-- The box has been read or has hopped, but its guards are those it had. -/
theorem Tracked.congr {s : State} {f f' : Falling} (h : Tracked s f)
    (hcurrent : f'.rotating = false → f'.box.currentRegions = f.box.currentRegions)
    (hnext : f'.box.nextRegions = f.box.nextRegions) (hslot : f'.slot = f.slot)
    (hstage : f'.stage = f.stage) (hcollected : f'.collected = f.collected)
    (hrotating : f.rotating = true → f'.rotating = true) (hrotations : f'.rotations = f.rotations) :
    Tracked s f' := by
  -- a rotation that had begun is not undone
  have hfalse : f'.rotating = false → f.rotating = false := fun hr =>
    Bool.eq_false_iff.mpr fun ht => by rw [hrotating ht] at hr; exact nomatch hr
  have hanchored : ∀ region, s.Anchored f region → s.Anchored f' region := fun region ha =>
    ⟨hcollected ▸ ha.1, fun hs => ha.2 (hstage ▸ hs)⟩
  refine
    { promoted := fun hs => ?_
      first := fun hs hr => ?_
      once := fun hread => ?_
      current := fun hread hr region hmem => ?_
      next := fun hread hr region hmem => ?_
      slot := fun hread hr region hmem => ?_ }
  · rw [hstage] at hs
    rw [hnext, hcollected]
    exact ⟨hrotating (h.promoted hs).1, (h.promoted hs).2⟩
  · rw [hstage] at hs
    rw [hcurrent hr, hcollected]
    exact h.first hs (hfalse hr)
  · rw [hstage] at hread
    rw [hrotations]
    exact h.once hread
  · rw [hstage] at hread
    rw [hcurrent hr] at hmem
    exact hanchored region (h.current hread (hfalse hr) region hmem)
  · rw [hstage] at hread
    rw [hnext] at hmem
    exact hanchored region (h.next hread (hrotations ▸ hr) region hmem)
  · rw [hstage] at hread
    rw [hnext] at hmem
    obtain ⟨k, ⟨slot, hk⟩, hregion⟩ := h.slot hread (hrotations ▸ hr) region hmem
    exact ⟨k, ⟨slot, by rw [hslot]; exact hk⟩, hregion⟩

theorem Tracked.readCurrent {s : State} {f : Falling} :
    Tracked s { f with stage := .current f.rotating, collected := f.currentRegions } where
  promoted h := by
    have hrot : f.rotating = true := Stage.current.inj h
    refine ⟨hrot, fun region hmem => ?_⟩
    show region ∈ f.currentRegions
    rwa [Falling.currentRegions, if_pos hrot]
  first h _ region hmem := by
    have hrot : ¬ f.rotating = true := by simp [Stage.current.inj h]
    show region ∈ f.currentRegions
    rwa [Falling.currentRegions, if_neg hrot]
  once h := h.elim
  current h := h.elim
  next h := h.elim
  slot h := h.elim

theorem Tracked.readNext {s : State} {f : Falling} {promoted : Bool} (h : Tracked s f)
    (hstage : f.stage = .current promoted) :
    Tracked s { f with
      stage := .guards, collected := f.collected ++ f.box.nextRegions, rotations := 0 } where
  promoted h := nomatch h
  first h := nomatch h
  once _ := Nat.zero_le 1
  -- the current guard has been read before, and no rotation has come between
  current _ hrot region hmem := by
    refine ⟨List.mem_append_left _ ?_, fun h => nomatch h⟩
    cases promoted with
    | true => exact nomatch (h.promoted hstage).1.symm.trans hrot
    | false => exact h.first hstage hrot region hmem
  next _ _ _ hmem := ⟨List.mem_append_right _ hmem, fun h => nomatch h⟩
  slot _ h := nomatch h

theorem Tracked.readPools {s : State} {f : Falling} (h : Tracked s f) (hstage : f.stage = .guards)
    (pools : List Region) :
    Tracked s { f with stage := .all, collected := f.collected ++ pools } := by
  have hread : f.stage.Read := by rw [hstage]; trivial
  refine
    { promoted := fun h => nomatch h
      first := fun h => nomatch h
      once := fun _ => h.once hread
      current := fun _ hrot region hmem => ?_
      next := fun _ hrot region hmem => ?_
      slot := fun _ => h.slot hread }
  · exact ⟨List.mem_append_left _ (h.current hread hrot region hmem).1, fun h => nomatch h⟩
  · exact ⟨List.mem_append_left _ (h.next hread hrot region hmem).1, fun h => nomatch h⟩

/-! ### A rotation -/

/-- The first rotation after the guards have been read puts the new guard into the slot. -/
theorem Tracked.rotate {s t : State} {f : Falling} {box : ChunkedSecureBox} {slot : Slot}
    {regions : List Region} (h : Tracked s f) (hwithin : f.Within regions.length)
    (hupdates : Updates regions s.watchdog f.slot t.watchdog slot)
    (hcurrent : box.currentRegions = f.box.nextRegions) (hnext : box.nextRegions = regions)
    (hfixed : ∀ region, s.Fixed region → t.Fixed region) : Tracked t (f.rotate box slot) := by
  have hread : (f.rotate box slot).stage.Read → f.stage.Read ∧ f.stage.rotated = f.stage := by
    show f.stage.rotated.Read → _
    cases f.stage <;> simp [Stage.rotated, Stage.Read]
  refine
    { promoted := fun hs => ?_
      first := fun hs _ region hmem => ?_
      once := fun hr => ?_
      current := fun hr _ region hmem => ?_
      next := fun hr hrot => nomatch hrot
      slot := fun hr _ region hmem => ?_ }
  -- no rotation makes it look as if the guard had been promoted before
  · change f.stage.rotated = _ at hs
    cases hstage : f.stage with
    | current promoted =>
      rw [hstage] at hs
      exact nomatch hs
    | _ =>
      rw [hstage] at hs
      exact nomatch hs
  · change f.stage.rotated = _ at hs
    change region ∈ box.currentRegions at hmem
    rw [hcurrent] at hmem
    cases hstage : f.stage with
    | current promoted =>
      cases promoted with
      | true => exact (h.promoted hstage).2 region hmem
      -- between the two reads the condition rules it out
      | false => exact absurd hstage hwithin.whole
    | _ =>
      rw [hstage] at hs
      exact nomatch hs
  -- it is the first since the guards have been read
  · show f.rotations + 1 ≤ 1
    rw [hwithin.once (hread hr).1]
  · obtain ⟨hr, hstage⟩ := hread hr
    change region ∈ box.currentRegions at hmem
    rw [hcurrent] at hmem
    obtain ⟨hcollected, hfix⟩ := h.next hr (hwithin.once hr) region hmem
    refine ⟨hcollected, fun hs => hfixed region (hfix ?_)⟩
    exact hstage.symm.trans hs
  · change region ∈ box.nextRegions at hmem
    rw [hnext] at hmem
    obtain ⟨k, hk, hregion⟩ := hupdates.written (hwithin.fits (hread hr).1) region hmem
    exact ⟨k, ⟨slot, rfl, hk⟩, hregion⟩

/-- A rotation whose request is granted keeps the invariant. -/
theorem Inv.rotate {s : State} {b : ℕ} {f : Falling} {box : ChunkedSecureBox}
    {w : ProcessWatchdog} {slot : Slot} {regions : List Region} (h : Inv P s)
    (hf : s.boxes[b]? = some f) (hupdates : Updates regions s.watchdog f.slot w slot)
    (hregular : (∃ plains, Regular P plains box) ∧ box.onNewGuard = true)
    (hcurrent : box.currentRegions = f.box.nextRegions) (hnext : box.nextRegions = regions)
    (hwithin : s.Kept b → f.Within regions.length) :
    Inv P ({ s with watchdog := w }.setBox b (f.rotate box slot)) := by
  have hmem := List.mem_of_getElem? hf
  -- positions of the slot were the box's own, or no one's
  have hown : ∀ k, slot.Has k → f.InSlot k ∨ s.watchdog.regionCount ≤ k := by
    intro k hk
    rcases hupdates.same with hsame | ⟨-, hindex⟩
    · exact Or.inl ⟨slot, hsame, hk⟩
    · have := hk.1
      exact Or.inr (by omega)
  have hother : ∀ c g, s.boxes[c]? = some g → c ≠ b → ∀ k, g.InSlot k → ¬ slot.Has k := by
    intro c g hg hcb k hgk hk
    rcases hown k hk with hfk | hle
    · exact h.disjoint c b g f hg hf hcb k hgk hfk
    · have := h.inSlot_lt (List.mem_of_getElem? hg) hgk
      omega
  -- what is fixed is in no slot, so it stays
  have hfixed : ∀ region, s.Fixed region →
      ({ s with watchdog := w }.setBox b (f.rotate box slot)).Fixed region := by
    rintro region ⟨k, hk, hregion, hfree⟩
    have hnot : ¬ slot.Has k := by
      intro hkslot
      rcases hown k hkslot with hfk | hle
      · exact hfree f hmem hfk
      · omega
    refine ⟨k, lt_of_lt_of_le hk hupdates.count_le, (hupdates.frame k hnot).trans hregion,
      fun g hg hgk => ?_⟩
    rcases mem_setBox hg with hg | rfl
    · exact hfree g hg hgk
    · obtain ⟨new, hnew, hk'⟩ := hgk
      obtain rfl := Option.some.inj hnew
      exact hnot hk'
  have hin : ∀ k, (f.rotate box slot).InSlot k → slot.Has k := by
    rintro k ⟨new, hnew, hk⟩
    obtain rfl := Option.some.inj hnew
    exact hk
  refine
    { regular := fun g hg hfalls => ?_
      inTable := fun g hg old hold => ?_
      disjoint := fun c d g g' hg hg' hcd k hk hk' => ?_
      tracked := fun c g hg hkept => ?_
      held := fun file hfile hphase c hc => ?_ }
  · rcases mem_setBox hg with hg | rfl
    · exact h.regular g hg hfalls
    · exact hregular
  · rcases mem_setBox hg with hg | rfl
    · obtain ⟨hnonneg, hle⟩ := h.inTable g hg old hold
      exact ⟨hnonneg, le_trans hle (by exact_mod_cast hupdates.count_le)⟩
    · obtain rfl := Option.some.inj hold
      exact hupdates.inTable
  · rcases getElem?_setBox_cases hg with ⟨rfl, rfl⟩ | ⟨hcb, hgs⟩
    · rcases getElem?_setBox_cases hg' with ⟨rfl, -⟩ | ⟨hdb, hgs'⟩
      · exact hcd rfl
      · exact hother d g' hgs' hdb k hk' (hin k hk)
    · rcases getElem?_setBox_cases hg' with ⟨rfl, rfl⟩ | ⟨-, hgs'⟩
      · exact hother c g hgs hcb k hk (hin k hk')
      · exact h.disjoint c d g g' hgs hgs' hcd k hk hk'
  · rcases getElem?_setBox_cases hg with ⟨rfl, rfl⟩ | ⟨hcb, hgs⟩
    · exact (h.tracked c f hf hkept).rotate (hwithin hkept) hupdates hcurrent hnext hfixed
    · exact (h.tracked c g hgs hkept).mono hfixed fun k hk =>
        hupdates.frame k (hother c g hgs hcb k hk)
  · refine registered_setBox hf (fun hregistered => ?_) (h.held file hfile hphase c hc)
    show f.stage.rotated = _
    rw [hregistered]
    rfl

/-! ### Steps of `_hold` and `forget` -/

theorem mem_setFile {s : State} {i : ℕ} {file file' : Held}
    (h : file ∈ (s.setFile i file').files) : file ∈ s.files ∨ file = file' :=
  List.mem_or_eq_of_mem_set h

/-- A file that is not held changes without a new box. -/
theorem Inv.setFile {s : State} {i : ℕ} {file file' : Held} (h : Inv P s)
    (hfile : s.files[i]? = some file) (hboxes : file'.boxes = file.boxes)
    (hkept : file'.phase ≠ .forgotten → file.phase ≠ .forgotten) (hphase : file'.phase ≠ .held) :
    Inv P (s.setFile i file') where
  regular := h.regular
  inTable := h.inTable
  disjoint := h.disjoint
  tracked b f hf hkeptb := by
    refine (h.tracked b f hf ?_).mono (fun _ h => h) fun _ _ => rfl
    obtain ⟨g, hg, hb, hforgotten⟩ := hkeptb
    rcases mem_setFile hg with hg | rfl
    · exact ⟨g, hg, hb, hforgotten⟩
    · exact ⟨file, List.mem_of_getElem? hfile, hboxes ▸ hb, hkept hforgotten⟩
  held g hg hphase' := by
    rcases mem_setFile hg with hg | rfl
    · exact h.held g hg hphase'
    · exact absurd hphase' hphase

theorem Inv.save {s : State} (h : Inv P s) :
    Inv P { s with files := s.files ++ [⟨[], .making⟩] } where
  regular := h.regular
  inTable := h.inTable
  disjoint := h.disjoint
  tracked b f hf hkept := by
    refine (h.tracked b f hf ?_).mono (fun _ h => h) fun _ _ => rfl
    obtain ⟨g, hg, hb, hphase⟩ := hkept
    rcases List.mem_append.mp hg with hg | hg
    · exact ⟨g, hg, hb, hphase⟩
    · rw [List.mem_singleton.mp hg] at hb
      exact nomatch hb
  held g hg hphase := by
    rcases List.mem_append.mp hg with hg | hg
    · exact h.held g hg hphase
    · rw [List.mem_singleton.mp hg] at hphase
      exact nomatch hphase

theorem Inv.make {s : State} {i : ℕ} {file : Held} {box : ChunkedSecureBox} (h : Inv P s)
    (hfile : s.files[i]? = some file) (hphase : file.phase = .making)
    (hregular : (∃ plains, Regular P plains box) ∧ box.onNewGuard = true) :
    Inv P ({ s with boxes := s.boxes ++ [Falling.new box] }.setFile i
      { file with boxes := file.boxes ++ [s.boxes.length] }) := by
  have hget : ∀ {b : ℕ} {f : Falling}, (s.boxes ++ [Falling.new box])[b]? = some f →
      s.boxes[b]? = some f ∨ b = s.boxes.length ∧ f = .new box := by
    intro b f hf
    rcases Nat.lt_or_ge b s.boxes.length with hlt | hge
    · rw [List.getElem?_append_left hlt] at hf
      exact Or.inl hf
    · obtain ⟨hlt, hf⟩ := List.getElem?_eq_some_iff.mp hf
      rw [List.length_append, List.length_singleton] at hlt
      obtain rfl : b = s.boxes.length := by omega
      refine Or.inr ⟨rfl, ?_⟩
      rw [← hf, List.getElem_concat_length rfl]
  -- a new box has no slot, and nothing has been read of it
  have hslot : ∀ k, ¬ (Falling.new box).InSlot k := fun k ⟨_, hnone, _⟩ => nomatch hnone
  have hfixed : ∀ region, s.Fixed region →
      ({ s with boxes := s.boxes ++ [Falling.new box] } : State).Fixed region := by
    rintro region ⟨k, hk, hregion, hfree⟩
    refine ⟨k, hk, hregion, fun g hg hgk => ?_⟩
    rcases List.mem_append.mp hg with hg | hg
    · exact hfree g hg hgk
    · rw [List.mem_singleton.mp hg] at hgk
      exact hslot k hgk
  refine
    { regular := fun g hg hfalls => ?_
      inTable := fun g hg old hold => ?_
      disjoint := fun c d g g' hg hg' hcd k hk hk' => ?_
      tracked := fun c g hg hkept => ?_
      held := fun file' hfile' hheld c hc => ?_ }
  · rcases List.mem_append.mp hg with hg | hg
    · exact h.regular g hg hfalls
    · rw [List.mem_singleton.mp hg]
      exact hregular
  · rcases List.mem_append.mp hg with hg | hg
    · exact h.inTable g hg old hold
    · rw [List.mem_singleton.mp hg] at hold
      exact nomatch hold
  -- two boxes with slots are two of the old ones
  · rcases hget hg with hg | ⟨-, rfl⟩
    · rcases hget hg' with hg' | ⟨-, rfl⟩
      · exact h.disjoint c d g g' hg hg' hcd k hk hk'
      · exact hslot k hk'
    · exact hslot k hk
  · rcases hget hg with hg | ⟨-, rfl⟩
    · refine (h.tracked c g hg ?_).mono hfixed fun _ _ => rfl
      obtain ⟨file', hfile', hc, hkept⟩ := hkept
      rcases mem_setFile hfile' with hfile' | rfl
      · exact ⟨file', hfile', hc, hkept⟩
      · rcases List.mem_append.mp hc with hc | hc
        · exact ⟨file, List.mem_of_getElem? hfile, hc, hkept⟩
        · rw [List.mem_singleton.mp hc] at hg
          exact absurd (List.getElem?_eq_some_iff.mp hg).1 (lt_irrefl _)
    · exact Tracked.new _ box
  · rcases mem_setFile hfile' with hfile' | rfl
    · obtain ⟨f, hf, hs⟩ := h.held file' hfile' hheld c hc
      refine ⟨f, ?_, hs⟩
      show (s.boxes ++ [Falling.new box])[c]? = _
      rw [List.getElem?_append_left (List.getElem?_eq_some_iff.mp hf).1, hf]
    · exact nomatch hphase.symm.trans hheld

theorem getElem?_register {s : State} {file : Held} {b : ℕ} {f' : Falling}
    (h : (s.register file).boxes[b]? = some f') :
    ∃ f, s.boxes[b]? = some f ∧
      f' = if b ∈ file.boxes then { f with stage := .registered } else f := by
  rw [State.register, List.getElem?_mapIdx] at h
  obtain ⟨f, hf, rfl⟩ := Option.map_eq_some_iff.mp h
  exact ⟨f, hf, rfl⟩

/-- A box keeps everything but its stage. -/
theorem register_box {s : State} {file : Held} {b : ℕ} {f' : Falling}
    (h : (s.register file).boxes[b]? = some f') :
    ∃ f, s.boxes[b]? = some f ∧ f'.box = f.box ∧ f'.slot = f.slot ∧ f'.stopped = f.stopped := by
  obtain ⟨f, hf, rfl⟩ := getElem?_register h
  refine ⟨f, hf, ?_⟩
  split <;> exact ⟨rfl, rfl, rfl⟩

theorem mem_register {s : State} {file : Held} {f' : Falling}
    (h : f' ∈ (s.register file).boxes) :
    ∃ f ∈ s.boxes, f'.box = f.box ∧ f'.slot = f.slot ∧ f'.stopped = f.stopped := by
  obtain ⟨b, hb⟩ := List.getElem?_of_mem h
  obtain ⟨f, hf, hrest⟩ := register_box hb
  exact ⟨f, List.mem_of_getElem? hf, hrest⟩

section Register

variable {s : State} {file : Held} {w : ProcessWatchdog}

theorem Inv.fixed_register (hroom : s.watchdog.addRegions (s.collected file) = some w)
    {region : Region} (hregion : s.Fixed region) :
    ({ s with watchdog := w }.register file).Fixed region := by
  obtain ⟨-, rfl⟩ := ProcessWatchdog.addRegions_some hroom
  obtain ⟨k, hk, rfl, hfree⟩ := hregion
  refine ⟨k, lt_of_lt_of_le hk (Nat.le_add_right _ _), store_outside (Or.inl hk),
    fun f' hf' hk' => ?_⟩
  obtain ⟨f, hf, -, hslot, -⟩ := mem_register hf'
  exact hfree f hf (hk'.of_slot hslot)

/-- What has been collected goes past all slots. -/
theorem Inv.collected_fixed (h : Inv P s)
    (hroom : s.watchdog.addRegions (s.collected file) = some w) {region : Region}
    (hregion : region ∈ s.collected file) :
    ({ s with watchdog := w }.register file).Fixed region := by
  obtain ⟨-, rfl⟩ := ProcessWatchdog.addRegions_some hroom
  obtain ⟨j, hj, rfl⟩ := List.mem_iff_getElem.mp hregion
  refine ⟨s.watchdog.regionCount + j, Nat.add_lt_add_left hj _,
    store_inside (List.getElem?_eq_getElem hj), fun f' hf' hk' => ?_⟩
  obtain ⟨f, hf, -, hslot, -⟩ := mem_register hf'
  have := h.inSlot_lt hf (hk'.of_slot hslot)
  omega

theorem Tracked.register {f : Falling} (h : Tracked s f) (hstage : f.stage = .all)
    (hfixed : ∀ region ∈ f.collected, s.Fixed region) :
    Tracked s { f with stage := .registered } := by
  have hread : f.stage.Read := by rw [hstage]; trivial
  exact
    { promoted := fun h => nomatch h
      first := fun h => nomatch h
      once := fun _ => h.once hread
      current := fun _ hrot region hmem =>
        have hcollected := (h.current hread hrot region hmem).collected
        ⟨hcollected, fun _ => hfixed region hcollected⟩
      next := fun _ hrot region hmem =>
        have hcollected := (h.next hread hrot region hmem).collected
        ⟨hcollected, fun _ => hfixed region hcollected⟩
      slot := fun _ => h.slot hread }

/-- Registering a file makes what has been collected from its boxes fixed. -/
theorem Inv.register {i : ℕ} (h : Inv P s) (hfile : s.files[i]? = some file)
    (hphase : file.phase = .making)
    (hall : ∀ b ∈ file.boxes, ∃ f, s.boxes[b]? = some f ∧ f.stage = .all)
    (hroom : s.watchdog.addRegions (s.collected file) = some w) :
    Inv P (({ s with watchdog := w }.register file).setFile i { file with phase := .held }) := by
  obtain ⟨-, hw⟩ := ProcessWatchdog.addRegions_some hroom
  set t : State := { s with watchdog := w }.register file with ht
  -- the new entries go past the cursor, and disturb nobody
  have htracked : ∀ c f, s.boxes[c]? = some f → s.Kept c → Tracked t f := by
    intro c f hf hkept
    refine (h.tracked c f hf hkept).mono (fun _ => Inv.fixed_register hroom) fun k hk => ?_
    show w.regions k = _
    rw [hw]
    exact store_outside (Or.inl (h.inSlot_lt (List.mem_of_getElem? hf) hk))
  have hset : ∀ f, Tracked t f → Tracked (t.setFile i { file with phase := .held }) f :=
    fun f hf => hf.mono (fun _ hr => hr) fun _ _ => rfl
  refine
    { regular := fun f' hf' hfalls => ?_
      inTable := fun f' hf' slot hslot' => ?_
      disjoint := fun c d g g' hg hg' hcd k hk hk' => ?_
      tracked := fun c g hg hkept => hset g ?_
      held := fun file' hfile' hheld c hc => ?_ }
  · obtain ⟨f, hf, hbox, -, hstopped⟩ := mem_register hf'
    rw [hbox]
    exact h.regular f hf ⟨hbox ▸ hfalls.1, hstopped ▸ hfalls.2⟩
  · obtain ⟨f, hf, -, hslot, -⟩ := mem_register hf'
    obtain ⟨hnonneg, hle⟩ := h.inTable f hf slot (hslot ▸ hslot')
    refine ⟨hnonneg, le_trans hle ?_⟩
    show (s.watchdog.regionCount : ℤ) ≤ w.regionCount
    rw [hw]
    exact_mod_cast Nat.le_add_right _ _
  · obtain ⟨f, hf, -, hslot, -⟩ := register_box hg
    obtain ⟨f', hf', -, hslot', -⟩ := register_box hg'
    exact h.disjoint c d f f' hf hf' hcd k (hk.of_slot hslot) (hk'.of_slot hslot')
  -- the boxes of this file, whose collected regions are entries now, and the others
  · obtain ⟨f, hf, rfl⟩ := getElem?_register hg
    by_cases hc : c ∈ file.boxes
    · rw [if_pos hc]
      obtain ⟨f₁, hf₁, hstage⟩ := hall c hc
      obtain rfl := Option.some.inj (hf.symm.trans hf₁)
      have hkept : s.Kept c := ⟨file, List.mem_of_getElem? hfile, hc, by rw [hphase]; decide⟩
      refine (htracked c f hf hkept).register hstage fun region hregion =>
        h.collected_fixed hroom (List.mem_flatMap.mpr ⟨c, hc, ?_⟩)
      rw [hf]
      exact hregion
    · rw [if_neg hc]
      refine htracked c f hf ?_
      obtain ⟨file', hfile', hcf, hkept⟩ := hkept
      rcases mem_setFile hfile' with hfile' | rfl
      · exact ⟨file', hfile', hcf, hkept⟩
      · exact absurd hcf hc
  · have hreg : ∀ (c : ℕ) (f : Falling), s.boxes[c]? = some f →
        (c ∈ file.boxes ∨ f.stage = .registered) →
        ∃ f', t.boxes[c]? = some f' ∧ f'.stage = .registered := by
      intro c f hf hor
      refine ⟨if c ∈ file.boxes then { f with stage := .registered } else f, ?_, ?_⟩
      · rw [ht, State.register, List.getElem?_mapIdx, hf]
        rfl
      · split
        · rfl
        · exact hor.resolve_left ‹_›
    rcases mem_setFile hfile' with hfile' | rfl
    · obtain ⟨f, hf, hs⟩ := h.held file' hfile' hheld c hc
      exact hreg c f hf (Or.inr hs)
    · obtain ⟨f, hf, -⟩ := hall c hc
      exact hreg c f hf (Or.inl hc)

end Register

/-! ### Runs -/

theorem Inv.regular_of {s : State} {b : ℕ} {f f' : Falling} (h : Inv P s)
    (hf : s.boxes[b]? = some f) (hbox : f'.box = f.box) (hstopped : f'.stopped = f.stopped)
    (hfalls : f'.Falls) : (∃ plains, Regular P plains f'.box) ∧ f'.box.onNewGuard = true := by
  rw [hbox]
  exact h.regular f (List.mem_of_getElem? hf) ⟨hbox ▸ hfalls.removed, hstopped ▸ hfalls.stopped⟩

theorem Inv.step {s t : State} {event : Event} (h : Inv P s)
    (hstep : Guarded (Step P trustGroup) Meets s event t) : Inv P t := by
  obtain ⟨hstep, hmeets⟩ := hstep
  cases hstep with
  | save => exact h.save
  | make hfile hphase _ hbox =>
    exact h.make hfile hphase ⟨ChunkedSecureBox.regular_construct hbox,
      ChunkedSecureBox.onNewGuard_construct hbox⟩
  | makeRaises hfile hphase =>
    exact h.setFile hfile rfl (fun _ => by rw [hphase]; decide) fun hheld => nomatch hheld
  | readCurrent _ _ _ hf hstage =>
    exact h.setBox hf rfl (h.regular_of hf rfl rfl) (fun hs => nomatch hstage.symm.trans hs)
      fun _ => Tracked.readCurrent
  | readNext hf hstage =>
    exact h.setBox hf rfl (h.regular_of hf rfl rfl) (fun hs => nomatch hstage.symm.trans hs)
      fun ht => ht.readNext hstage
  | readPools hf hstage =>
    exact h.setBox hf rfl (h.regular_of hf rfl rfl) (fun hs => nomatch hstage.symm.trans hs)
      fun ht => ht.readPools hstage _
  | register hfile hmade hall hroom => exact h.register hfile hmade.1 hall hroom
  -- a table that is full refuses, which the condition excludes
  | registerRaises => exact absurd rfl hmeets.granted
  | @bounce b f cell hf =>
    refine h.setBox hf rfl (fun hfalls => ?_) id fun ht =>
      ht.congr (fun _ => ?_) ?_ rfl rfl rfl id rfl
    · obtain ⟨⟨plains, ck, nk, hold, hne⟩, hnew⟩ :=
        h.regular f (List.mem_of_getElem? hf) ⟨hfalls.1, hfalls.2⟩
      exact ⟨⟨plains, ck, nk, hold.bounce cell, hne⟩, hnew⟩
    · exact ChunkedSecureBox.guardRegions_bounce _ _ _
    · exact ChunkedSecureBox.guardRegions_bounce _ _ _
  | @hop b f env hf hfalls _ hcall hok hquiet =>
    obtain ⟨⟨plains, hreg⟩, hnew⟩ := h.regular f (List.mem_of_getElem? hf) hfalls
    obtain ⟨hnew', ⟨-, -, hcurrent, hnext⟩ | ⟨_, _, -, -, hloud, -⟩ | ⟨e, herror, -⟩⟩ :=
      hreg.hop_regions hnew hcall
    · exact h.setBox hf rfl (fun _ => ⟨⟨plains, hreg.hop hok⟩, hnew'⟩) id fun ht =>
        ht.congr (fun _ => hcurrent) hnext rfl rfl rfl id rfl
    · exact nomatch hquiet.symm.trans hloud
    · exact nomatch hok.symm.trans herror
  | promote hf =>
    exact h.setBox hf rfl (h.regular_of hf rfl rfl) id fun ht =>
      ht.congr (fun _ => rfl) rfl rfl rfl rfl (fun _ => rfl) rfl
  | @rotate b f env regions hf hfalls _ hcall hok hloud =>
    obtain ⟨⟨plains, hreg⟩, hnew⟩ := h.regular f (List.mem_of_getElem? hf) hfalls
    obtain ⟨hnew', ⟨-, hquiet, -⟩ | ⟨key, pages, -, -, hloud', hcurrent, hnext⟩ | ⟨e, herror, -⟩⟩ :=
      hreg.hop_regions hnew hcall
    · exact nomatch hquiet.symm.trans hloud
    -- a hop that announces a guard rotates
    · obtain rfl := Option.some.inj (hloud'.symm.trans hloud)
      exact h.rotate hf
        (onNewGuard_updates (h.inTable f (List.mem_of_getElem? hf)) hmeets.granted)
        ⟨⟨plains, hreg.hop hok⟩, hnew'⟩ hcurrent hnext
        fun hkept => hmeets.within b _ _ f rfl hkept hf
    · exact nomatch hok.symm.trans herror
  | @hopRaises b f env e hf hfalls hrot hcall herror =>
    obtain ⟨⟨plains, hreg⟩, hnew⟩ := h.regular f (List.mem_of_getElem? hf) hfalls
    -- the guard has been promoted and then the hop raises: the box stops
    obtain ⟨-, ⟨hok, -⟩ | ⟨_, _, hok, -⟩ | ⟨e, -, -, hnext⟩⟩ := hreg.hop_regions hnew hcall
    · exact nomatch hok.symm.trans herror
    · exact nomatch hok.symm.trans herror
    · exact h.setBox hf rfl (fun hfalls => nomatch hfalls.stopped) id fun ht =>
        ht.congr (fun hr => nomatch hrot.symm.trans hr) hnext rfl rfl rfl id rfl
  | forget hfile hphase =>
    exact h.setFile hfile rfl (fun hforgotten => absurd rfl hforgotten) fun hheld => nomatch hheld
  | @collapse file b f _ _ _ hf _ =>
    obtain ⟨hcurrent, hnext⟩ := ChunkedSecureBox.regions_of_collapse f.box
    exact h.setBox hf rfl (fun hfalls => nomatch hfalls.removed) id fun ht =>
      ht.congr (fun _ => hcurrent) hnext rfl rfl rfl id rfl

/-- **Coverage.**  Take a run in which no request is refused, and no box of a file that has
not been forgotten rotates between the reads of its two guards, or twice after them, or to a
guard of another size than its slot.  In every state of it, the pages of the current and of
the next guard of every box of a held file are in the table. -/
theorem guards_covered {events : List Event} {s : State}
    (hrun : Run (Guarded (Step P trustGroup) Meets) start events s) {file : Held}
    (hfile : file ∈ s.files) (hheld : file.phase = .held) {b : ℕ} (hb : b ∈ file.boxes) :
    ∃ f, s.boxes[b]? = some f ∧
      ∀ region, region ∈ f.currentRegions ∨ region ∈ f.box.nextRegions →
        s.watchdog.Covers region := by
  -- the invariant is kept by every step that meets the condition, so it holds at the end
  have hinv : Inv P s := hrun.invariant Inv.start Inv.step
  obtain ⟨f, hf, hstage⟩ := hinv.held file hfile hheld b hb
  have hkept : s.Kept b := ⟨file, hfile, hb, by rw [hheld]; decide⟩
  exact ⟨f, hf, fun region => (hinv.tracked b f hf hkept).covers hinv
    (List.mem_of_getElem? hf) hstage⟩

/-! ### Two rotations -/

/-- A hop whose rotation maps the pages of the new guard from an address on. -/
def sampleHop (base : ℕ) : HopEnv where
  between := []
  nonce := InitEnv.sample.nonce 5
  fetch := .ok []
  mmap := .ok (pagesAt base)
  callback := .ok ()

/-- The hop rotates the box to such a guard. -/
structure Turns (base : ℕ) (box : ChunkedSecureBox) : Prop where
  completing : box.Completing
  returns : (box.hop Primitives.xzSample (sampleHop base)).outcome.toOption = some ()
  announces : ∃ regions ∈ (box.hop Primitives.xzSample (sampleHop base)).announced,
    regions.length = 176 ∧ ∀ region ∈ regions, base ≤ region.1 ∧ region.1 < 2 * base

instance (box : ChunkedSecureBox) : Decidable box.Completing :=
  inferInstanceAs (Decidable (_ ∧ _))

instance (base : ℕ) (box : ChunkedSecureBox) : Decidable (Turns base box) :=
  decidable_of_iff (box.Completing ∧
      (box.hop Primitives.xzSample (sampleHop base)).outcome.toOption = some () ∧
      ∃ regions ∈ (box.hop Primitives.xzSample (sampleHop base)).announced,
        regions.length = 176 ∧ ∀ region ∈ regions, base ≤ region.1 ∧ region.1 < 2 * base)
    ⟨fun ⟨h, h', h''⟩ => ⟨h, h', h''⟩, fun ⟨h, h', h''⟩ => ⟨h, h', h''⟩⟩

theorem sampleTurns : (sampleConstruct 0).toOption.any fun box => Turns (2 ^ 24) box ∧
    Turns (2 ^ 25) (box.hop Primitives.xzSample (sampleHop (2 ^ 24))).box := by
  decide +kernel

/-- A small file has been saved. -/
theorem saved_run {C : State → Event → Prop} (hC : ∀ t, C t .quiet)
    (hC' : ∀ t, C t (.registers 1059 true)) :
    ∃ b₀ b₁ b₂ w, sampleConstruct 0 = .ok b₀ ∧
      Run (Guarded (Step Primitives.xzSample false) C) start
        (List.replicate 13 .quiet ++ [.registers 1059 true]) (start.held w b₀ b₁ b₂) ∧
      w.regionCount = 1059 ∧ ∀ region, w.Covers region → region.1 < 2 ^ 24 := by
  obtain ⟨b₀, hb₀, h₀⟩ := sampleBox 0
  obtain ⟨b₁, hb₁, h₁⟩ := sampleBox 1
  obtain ⟨b₂, hb₂, h₂⟩ := sampleBox 2
  have hlen := h₀.length h₁ h₂
  obtain ⟨w, hw⟩ : ∃ w, start.watchdog.addRegions (b₀.regions ++ b₁.regions ++ b₂.regions)
      = some w := by
    refine ⟨_, if_neg ?_⟩
    rw [hlen]
    decide
  -- thirteen steps make the three boxes, and the last one registers them
  have hrun := (hold_run (s := start) (hC _) (fun t _ _ => hC t) (makes_sampleBox hb₀)
    (makes_sampleBox hb₁) (makes_sampleBox hb₂)).snoc ⟨register_step hw, hlen ▸ hC' _⟩
  rw [hlen] at hrun
  refine ⟨b₀, b₁, b₂, w, hb₀, hrun, ?_, fun region hcovers => ?_⟩
  · obtain ⟨-, rfl⟩ := ProcessWatchdog.addRegions_some hw
    exact (Nat.zero_add _).trans hlen
  rcases ProcessWatchdog.covers_addRegions hw hcovers with hmem | ⟨k, hk, -⟩
  · rcases List.mem_append.mp hmem with hmem | hmem
    · rcases List.mem_append.mp hmem with hmem | hmem
      · exact h₀.below region hmem
      · exact h₁.below region hmem
    · exact h₂.below region hmem
  · exact nomatch hk

/-- A box that hops to a new guard, whose slot is written. -/
theorem turn_run {C : State → Event → Prop} {s : State} {b base : ℕ} {f : Falling}
    {plains : List Bytes} (hC : C s .quiet)
    (hC' : C (s.setBox b { f with rotating := true })
      (.rotates b 176 (asked 176 s.watchdog f.slot))) (hf : s.boxes[b]? = some f)
    (hfalls : f.Falls) (hrotating : f.rotating = false)
    (hreg : Regular Primitives.xzSample plains f.box) (hnew : f.box.onNewGuard = true)
    (hturns : Turns base f.box) :
    ∃ regions box, regions.length = 176 ∧
      (∀ region ∈ regions, base ≤ region.1 ∧ region.1 < 2 * base) ∧
      box = (f.box.hop Primitives.xzSample (sampleHop base)).box ∧
      Regular Primitives.xzSample plains box ∧ box.onNewGuard = true ∧
      box.currentRegions = f.box.nextRegions ∧ box.nextRegions = regions ∧
      Run (Guarded (Step Primitives.xzSample false) C) s
        [.quiet, .rotates b 176 (asked 176 s.watchdog f.slot)]
        ({ s with watchdog := (onNewGuard regions s.watchdog f.slot).1 }.setBox b
          (f.rotate box (onNewGuard regions s.watchdog f.slot).2)) := by
  obtain ⟨hcompleting, hreturns, regions, hannounced, hlen, hbase⟩ := hturns
  have hok : (f.box.hop Primitives.xzSample (sampleHop base)).outcome = .ok () := by
    cases h : (f.box.hop Primitives.xzSample (sampleHop base)).outcome with
    | ok => rfl
    | error e =>
      rw [h] at hreturns
      cases hreturns
  have hcall : (sampleHop base).callback = .ok () := rfl
  obtain ⟨hnew', ⟨-, hquiet, -⟩ | ⟨key, pages, -, -, hloud, hcurrent, hnext⟩ | ⟨e, herror, -⟩⟩ :=
    hreg.hop_regions hnew hcall
  · cases hquiet.symm.trans hannounced
  · obtain rfl := Option.some.inj (hloud.symm.trans hannounced)
    refine ⟨_, _, hlen, hbase, rfl, hreg.hop hok, hnew', hcurrent, hnext, ?_⟩
    -- the hop is two steps of the storage: the promotion, and the new guard
    have hpromote : Step Primitives.xzSample false s .quiet
        (s.setBox b { f with rotating := true }) := .promote hf hfalls hrotating hcompleting
    have hrotate : Step Primitives.xzSample false _ _ _ :=
      .rotate (getElem?_setBox { f with rotating := true } hf) ⟨hfalls.1, hfalls.2⟩ rfl rfl hok
        hloud
    rw [hlen] at hrotate
    have hrun : Run (Guarded (Step Primitives.xzSample false) C) s _ _ :=
      (Run.single ⟨hpromote, hC⟩).snoc ⟨hrotate, hC'⟩
    simpa [State.setBox, Falling.rotate] using hrun
  · cases hok.symm.trans herror

/-- There is room for a slot after one small file. -/
theorem granted_of_count {w : ProcessWatchdog} (hcount : w.regionCount = 1059) :
    asked 176 w none ≠ some false := by
  obtain ⟨hfull, -⟩ | ⟨-, hroom⟩ := ProcessWatchdog.reserveSlot_cases w 176
  · rw [hcount] at hfull
    exact absurd hfull (by decide)
  · rw [asked, hroom]
    simp

/-- A small file is held, and one of its boxes has hopped to a new guard. -/
theorem guards_covered_saved :
    ∃ events s file, Run (Guarded (Step Primitives.xzSample false) Meets) start events s ∧
      file ∈ s.files ∧ file.phase = .held ∧ file.boxes = [0, 1, 2] ∧
      (∃ f, s.boxes[0]? = some f ∧ f.rotations = 1) ∧
      ∀ b ∈ file.boxes, ∃ f, s.boxes[b]? = some f ∧
        ∀ region, region ∈ f.currentRegions ∨ region ∈ f.box.nextRegions →
          s.watchdog.Covers region := by
  obtain ⟨b₀, b₁, b₂, w, hb₀, hrun, hcount, -⟩ := saved_run (C := Meets)
    (fun t => ⟨id, fun _ _ _ _ h => (nomatch h)⟩)
    (fun t => ⟨fun h => (nomatch h), fun _ _ _ _ h => (nomatch h)⟩)
  have hturns : Turns (2 ^ 24) b₀ := by
    have h := sampleTurns
    rw [hb₀] at h
    exact (of_decide_eq_true h).1
  obtain ⟨plains, hreg⟩ := ChunkedSecureBox.regular_construct hb₀
  have hnew := ChunkedSecureBox.onNewGuard_construct hb₀
  have hremoved := (ChunkedSecureBox.construct_flags hb₀).2.1
  set s₀ := start.held w b₀ b₁ b₂
  have hf₀ : s₀.boxes[0]? = some (.registered b₀) := rfl
  have hquiet : Meets s₀ .quiet := ⟨id, fun _ _ _ _ h => (nomatch h)⟩
  -- the box has not rotated since its guards were read, and has no slot yet
  have hrotates : Meets (s₀.setBox 0 { Falling.registered b₀ with rotating := true })
      (.rotates 0 176 (asked 176 s₀.watchdog (Falling.registered b₀).slot)) := by
    refine ⟨granted_of_count hcount, fun b count reserved f heq _ hf => ?_⟩
    obtain ⟨rfl, rfl, -⟩ := Event.rotates.inj heq
    obtain rfl := Option.some.inj ((getElem?_setBox _ hf₀).symm.trans hf)
    exact ⟨nofun, fun _ => rfl, fun _ _ h => (nomatch h)⟩
  obtain ⟨R, box, -, -, -, -, -, -, -, hturn⟩ :=
    turn_run hquiet hrotates hf₀ ⟨hremoved, rfl⟩ rfl hreg hnew hturns
  have hall := hrun.trans hturn
  have hmem : ⟨[0, 1, 2], .held⟩ ∈ s₀.files :=
    List.mem_append_right _ (List.mem_singleton.mpr rfl)
  exact ⟨_, _, _, hall, hmem, rfl, rfl, ⟨_, getElem?_setBox _ hf₀, rfl⟩,
    fun b hb => guards_covered hall hmem rfl hb⟩

/-- A small file is held, and one of its boxes, of one chunk, hops twice.  No request has been
refused, but the pages of the guard that is current now are not in the table. -/
theorem current_guard_lost :
    ∃ events s file f region, Run (Step Primitives.xzSample false) start events s ∧
      (∀ event ∈ events, ¬ event.Refused) ∧ file ∈ s.files ∧ file.phase = .held ∧
      0 ∈ file.boxes ∧ s.boxes[0]? = some f ∧ region ∈ f.currentRegions ∧
      ¬ s.watchdog.Covers region := by
  obtain ⟨b₀, b₁, b₂, w, hb₀, hrun, hcount, hbelow⟩ := saved_run
    (C := fun _ _ => True) (fun _ => trivial) fun _ => trivial
  have hturns : Turns (2 ^ 24) b₀ ∧
      Turns (2 ^ 25) (b₀.hop Primitives.xzSample (sampleHop (2 ^ 24))).box := by
    have h := sampleTurns
    rw [hb₀] at h
    exact of_decide_eq_true h
  obtain ⟨plains, hreg⟩ := ChunkedSecureBox.regular_construct hb₀
  have hnew := ChunkedSecureBox.onNewGuard_construct hb₀
  have hremoved := (ChunkedSecureBox.construct_flags hb₀).2.1
  set s₀ := start.held w b₀ b₁ b₂
  have hf₀ : s₀.boxes[0]? = some (.registered b₀) := rfl
  -- the first rotation takes a slot
  obtain ⟨R₁, box₁, hlen₁, hbase₁, hbox₁, hreg₁, hnew₁, -, hnext₁, hrun₁⟩ :=
    turn_run (C := fun _ _ => True) trivial trivial hf₀ ⟨hremoved, rfl⟩ rfl hreg hnew hturns.1
  have hremoved₁ : box₁.removed = false := by
    rw [hbox₁]
    exact (hreg.hop_flags _).1.trans hremoved
  set w₁ := (onNewGuard R₁ s₀.watchdog none).1 with hw₁
  set slot₁ := (onNewGuard R₁ s₀.watchdog none).2 with hslot₁
  have hgranted : asked R₁.length w none ≠ some false := hlen₁ ▸ granted_of_count hcount
  have hup₁ : Updates R₁ w none w₁ slot₁ := onNewGuard_updates (fun _ h => (nomatch h)) hgranted
  have hsize : slot₁.size = R₁.length := by
    rw [hslot₁, onNewGuard_slot]
    rfl
  -- the second one overwrites it
  have hf₁ := getElem?_setBox (s := { s₀ with watchdog := w₁ })
    ((Falling.registered b₀).rotate box₁ slot₁) hf₀
  obtain ⟨R₂, box₂, hlen₂, hbase₂, -, -, -, hcurrent₂, -, hrun₂⟩ :=
    turn_run (C := fun _ _ => True) trivial trivial hf₁ ⟨hremoved₁, rfl⟩ rfl hreg₁ hnew₁
      (hbox₁ ▸ hturns.2)
  set w₂ := (onNewGuard R₂ w₁ (some slot₁)).1 with hw₂
  have hup₂ : Updates R₂ w₁ (some slot₁) w₂ (onNewGuard R₂ w₁ (some slot₁)).2 :=
    onNewGuard_updates (fun _ h => Option.some.inj h ▸ hup₁.inTable) (fun h => (nomatch h))
  have hsame : (onNewGuard R₂ w₁ (some slot₁)).2 = slot₁ := onNewGuard_slot R₂ w₁ (some slot₁)
  obtain ⟨region, hregion⟩ : ∃ region, region ∈ R₁ := by
    refine List.exists_mem_of_length_pos ?_
    rw [hlen₁]
    decide
  refine ⟨_, _, ⟨[0, 1, 2], .held⟩, _, region, ((hrun.trans hrun₁).trans hrun₂).mono And.left, ?_,
    ?_, rfl, List.mem_cons_self, getElem?_setBox _ hf₁, ?_, ?_⟩
  · intro event hevent
    simp only [List.mem_append, List.mem_replicate, List.mem_cons, List.not_mem_nil,
      or_false] at hevent
    rcases hevent with ((⟨-, rfl⟩ | rfl) | rfl | rfl) | rfl | rfl
    · exact id
    · exact fun h => (nomatch h)
    · exact id
    · rwa [hlen₁] at hgranted
    · exact id
    · exact fun h => (nomatch h)
  · exact List.mem_append_right _ (List.mem_singleton.mpr rfl)
  · show region ∈ box₂.currentRegions
    rw [hcurrent₂]
    show region ∈ box₁.nextRegions
    rwa [hnext₁]
  · intro hcovers
    have hlow := hbase₁ region hregion
    rcases hup₂.covers (fun old h => by
      rw [← Option.some.inj h, hsize, hlen₁, hlen₂]) hcovers with hmem | ⟨k, hk, hout, hkr⟩
    -- the second guard lies in other pages
    · have := hbase₂ region hmem
      omega
    · rw [hsame] at hout
      -- and what `save` registered lies below both
      have hlt : k < w.regionCount := by
        by_contra hge
        exact hout (hup₁.fresh k (Nat.not_lt.mp hge) hk)
      have := hbelow region ⟨k, hlt, (hup₁.frame k hout).symm.trans hkr⟩
      omega

end SecureVirtualStorage
