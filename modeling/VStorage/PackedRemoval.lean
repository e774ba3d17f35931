/-
`packed_box.py`: what removing a piece leaves of it.

Two boxes go through the same events, but for the bytes that are added under one name.  As
long as the name is there they differ in its interval only, in whichever of the buffers has
it; every other piece lies apart from it, so that what is cut out and shifted is the same in
both.  Names may be added again, removed and asked for in any order, whether they are there
or not.  When the name itself is added while it has bytes in the box, its interval moves to
the new ones, and the old ones stay where no removal finds them.

* `agree_perform`: an event keeps the boxes in agreement outside the interval of the name;
* `performAll_eq`: so that they are equal once the name is gone;
* `Differ.perform`: an event that cuts a byte of no interval out of neither of them keeps
  them apart;
* `traceless_iff`: so that nothing is left of the name exactly when it is never added while
  it has bytes in the box; `remnant`: a name that is;
* `addedFresh_run`: in the runs of the storage it never is.
-/
import Mathlib
import VStorage.PackedBox

namespace PackedFallingBox

variable {Name : Type*}

/-! ### Buffers -/

section Buffers

variable {box : PackedFallingBox Name}

theorem boxes_fall (hlen : box.boxA.length = box.boxB.length) (hne : box.boxA.length ≠ 0) :
    box.fall = { box with
      boxA := box.activeBox, boxB := box.activeBox, hops := box.hops + 1,
      active := match box.active with
        | .a => .b
        | .b => .a } := by
  rw [fall, if_neg hne]
  cases hactive : box.active with
  | a =>
    dsimp only
    rw [copyChunks_eq hlen.symm, activeBox, hactive]
  | b =>
    dsimp only
    rw [hlen, copyChunks_eq hlen, activeBox, hactive]

theorem length_activeBox (hlen : box.boxA.length = box.boxB.length) :
    box.activeBox.length = box.boxA.length := by
  rw [activeBox]
  cases box.active with
  | a => rfl
  | b => exact hlen.symm

/-- Two buffers that agree at a position, lengthened by bytes that agree there. -/
theorem getElem?_append_congr {xs ys d d' : Bytes} {p : ℕ} (hlen : ys.length = xs.length)
    (hbefore : p < xs.length → ys[p]? = xs[p]?)
    (hafter : xs.length ≤ p → d'[p - xs.length]? = d[p - xs.length]?) :
    (ys ++ d')[p]? = (xs ++ d)[p]? := by
  rcases Nat.lt_or_ge p xs.length with hlt | hge
  · rw [List.getElem?_append_left (hlen ▸ hlt), List.getElem?_append_left hlt, hbefore hlt]
  · rw [List.getElem?_append_right (hlen ▸ hge), List.getElem?_append_right hge, hlen, hafter hge]

theorem getElem?_deleteSlice {bytes : Bytes} {o : ℕ} (ho : o ≤ bytes.length) (l p : ℕ) :
    (deleteSlice bytes o l)[p]? = if p < o then bytes[p]? else bytes[p + l]? := by
  have htake : (bytes.take o).length = o := by rw [List.length_take, min_eq_left ho]
  rw [deleteSlice]
  split
  · rename_i hlt
    rw [List.getElem?_append_left (htake.symm ▸ hlt), List.getElem?_take, if_pos hlt]
  · rename_i hge
    rw [List.getElem?_append_right (by omega), htake, List.getElem?_drop]
    congr 1
    omega

theorem length_deleteSlice {bytes : Bytes} {o l : ℕ} (h : o + l ≤ bytes.length) :
    (deleteSlice bytes o l).length = bytes.length - l := by
  rw [deleteSlice, List.length_append, List.length_take, List.length_drop]
  omega

end Buffers

variable [DecidableEq Name]

/-! ### Events -/

/-- What an event does to the box, whatever state it is in. -/
def perform (box : PackedFallingBox Name) : Event Name → PackedFallingBox Name
  | .hop => box.fall
  | .add name data => box.add name data
  | .get name => (box.get name).1
  | .remove name => (box.remove name).1

def performAll (box : PackedFallingBox Name) (events : List (Event Name)) :
    PackedFallingBox Name :=
  events.foldl perform box

/-- The same event, but for the bytes that it may add under the name. -/
inductive SameBut (name : Name) : Event Name → Event Name → Prop
  | same (event : Event Name) : SameBut name event event
  | add {data data' : Bytes} : data.length = data'.length →
      SameBut name (.add name data) (.add name data')

/-- The name has no bytes in the box: it is not there, or its interval is empty. -/
def Empty (name : Name) (box : PackedFallingBox Name) : Prop :=
  ∀ o l, box.index.get? name = some (o, l) → l = 0

/-- The name is not added while it has bytes in the box. -/
def AddedFresh (name : Name) : PackedFallingBox Name → List (Event Name) → Prop
  | _, [] => True
  | box, event :: events =>
    (∀ data, event = .add name data → Empty name box) ∧
      AddedFresh name (box.perform event) events

/-! ### Intervals -/

/-- The intervals of the index are in the buffers, and apart from each other. -/
structure Sound (box : PackedFallingBox Name) : Prop where
  length : box.boxA.length = box.boxB.length
  within : ∀ {n o l}, box.index.get? n = some (o, l) → o + l ≤ box.boxA.length
  apart : ∀ {n m o l o' l'}, n ≠ m → box.index.get? n = some (o, l) →
    box.index.get? m = some (o', l') → o + l ≤ o' ∨ o' + l' ≤ o

/-- The position is not in the interval of the name. -/
def Outside (index : Dict Name (ℕ × ℕ)) (name : Name) (p : ℕ) : Prop :=
  ∀ o l, index.get? name = some (o, l) → p < o ∨ o + l ≤ p

/-- The two boxes differ at most in the interval of the name. -/
structure Agree (name : Name) (box box' : PackedFallingBox Name) : Prop where
  sound : box.Sound
  length : box'.boxA.length = box'.boxB.length
  active : box'.active = box.active
  index : box'.index = box.index
  hops : box'.hops = box.hops
  paused : box'.paused = box.paused
  sizes : box'.boxA.length = box.boxA.length
  sameA : ∀ {p}, Outside box.index name p → box'.boxA[p]? = box.boxA[p]?
  sameB : ∀ {p}, Outside box.index name p → box'.boxB[p]? = box.boxB[p]?

variable {name : Name} {box box' : PackedFallingBox Name}

theorem empty_of_notMem (h : name ∉ box.index.keys) : Empty name box := by
  intro o l hitem
  rw [Dict.get?_eq_none.mpr h] at hitem
  cases hitem

theorem sound_new : (new : PackedFallingBox Name).Sound where
  length := rfl
  within h := by cases h
  apart _ h := by cases h

theorem agree_new (name : Name) : Agree name (new : PackedFallingBox Name) new where
  sound := sound_new
  length := rfl
  active := rfl
  index := rfl
  hops := rfl
  paused := rfl
  sizes := rfl
  sameA _ := rfl
  sameB _ := rfl

/-- Without the name the boxes are the same. -/
theorem Agree.eq (h : Agree name box box') (hgone : name ∉ box.index.keys) : box' = box := by
  have hout : ∀ p, Outside box.index name p := by
    intro p o l hitem
    rw [Dict.get?_eq_none.mpr hgone] at hitem
    cases hitem
  have hA : box'.boxA = box.boxA := List.ext_getElem? fun p => h.sameA (hout p)
  have hB : box'.boxB = box.boxB := List.ext_getElem? fun p => h.sameB (hout p)
  obtain ⟨-, -, hactive, hindex, hhops, hpaused, -, -, -⟩ := h
  cases box
  cases box'
  simp only at hA hB hactive hindex hhops hpaused
  rw [hA, hB, hactive, hindex, hhops, hpaused]

theorem Agree.withPaused (h : Agree name box box') (paused : Bool) :
    Agree name { box with paused } { box' with paused } where
  sound := ⟨h.sound.length, h.sound.within, h.sound.apart⟩
  length := h.length
  active := h.active
  index := h.index
  hops := h.hops
  paused := rfl
  sizes := h.sizes
  sameA := h.sameA
  sameB := h.sameB

/-! ### Hops -/

theorem Agree.sameActive (h : Agree name box box') {p : ℕ} (hp : Outside box.index name p) :
    box'.activeBox[p]? = box.activeBox[p]? := by
  rw [activeBox, activeBox, h.active]
  cases box.active with
  | a => exact h.sameA hp
  | b => exact h.sameB hp

theorem Sound.fall (h : box.Sound) : box.fall.Sound := by
  by_cases hempty : box.boxA.length = 0
  · rw [PackedFallingBox.fall, if_pos hempty]
    exact h
  rw [boxes_fall h.length hempty]
  refine ⟨rfl, fun hitem => ?_, h.apart⟩
  exact (h.within hitem).trans (length_activeBox h.length).ge

theorem Agree.fall (h : Agree name box box') : Agree name box.fall box'.fall := by
  have hsound := h.sound.fall
  by_cases hempty : box.boxA.length = 0
  · have hempty' : box'.boxA.length = 0 := h.sizes.trans hempty
    rw [PackedFallingBox.fall, PackedFallingBox.fall, if_pos hempty, if_pos hempty']
    exact h
  have hempty' : box'.boxA.length ≠ 0 := h.sizes ▸ hempty
  have hlen := length_activeBox h.sound.length
  rw [boxes_fall h.sound.length hempty] at hsound
  rw [boxes_fall h.sound.length hempty, boxes_fall h.length hempty']
  refine ⟨hsound, rfl, ?_, h.index, ?_, h.paused, ?_, h.sameActive, h.sameActive⟩
  · show (match box'.active with | .a => Side.b | .b => .a) = _
    rw [h.active]
  · show box'.hops + 1 = box.hops + 1
    rw [h.hops]
  · show box'.activeBox.length = box.activeBox.length
    rw [length_activeBox h.length, hlen, h.sizes]

/-! ### Adding and removing -/

/-- What `add` appends to the two buffers. -/
def appendedA (box : PackedFallingBox Name) (data : Bytes) : Bytes :=
  if box.active = .a then data else List.replicate data.length 0

def appendedB (box : PackedFallingBox Name) (data : Bytes) : Bytes :=
  if box.active = .a then List.replicate data.length 0 else data

theorem boxes_add (hlen : box.boxA.length = box.boxB.length) (name : Name) (data : Bytes) :
    box.add name data = { box with
      boxA := box.boxA ++ box.appendedA data, boxB := box.boxB ++ box.appendedB data,
      index := box.index.set name (box.boxA.length, data.length), paused := false } := by
  rw [PackedFallingBox.add, length_activeBox hlen, appendedA, appendedB]
  cases hactive : box.active with
  | a => rfl
  | b => rfl

omit [DecidableEq Name] in
theorem length_appended (box : PackedFallingBox Name) (data : Bytes) :
    (box.appendedA data).length = data.length ∧ (box.appendedB data).length = data.length := by
  rw [appendedA, appendedB]
  split
  · simp
  · simp

theorem Sound.add (h : box.Sound) (name : Name) (data : Bytes) : (box.add name data).Sound := by
  obtain ⟨hA, hB⟩ := box.length_appended data
  rw [boxes_add h.length]
  refine ⟨?_, ?_, ?_⟩
  · show (box.boxA ++ box.appendedA data).length = (box.boxB ++ box.appendedB data).length
    rw [List.length_append, List.length_append, h.length, hA, hB]
  · intro n o l hitem
    show o + l ≤ (box.boxA ++ box.appendedA data).length
    rw [List.length_append, hA]
    rw [Dict.get?_set] at hitem
    split at hitem
    · cases hitem
      exact le_rfl
    · have := h.within hitem
      omega
  · intro n m o l o' l' hne hn hm
    rw [Dict.get?_set] at hn hm
    split at hn
    · rename_i hname
      rw [if_neg fun heq => hne (hname.trans heq.symm)] at hm
      cases hn
      exact Or.inr (h.within hm)
    · split at hm
      · cases hm
        exact Or.inl (h.within hn)
      · exact h.apart hne hn hm

/-- Bytes of one length, added in both boxes: they are the same, unless the name is the one,
which has no bytes there yet. -/
theorem Agree.add (h : Agree name box box') {added : Name} {data data' : Bytes}
    (hlen : data'.length = data.length)
    (hsame : (added ≠ name ∧ data' = data) ∨ (added = name ∧ Empty name box)) :
    Agree name (box.add added data) (box'.add added data') := by
  -- outside the new interval a position is outside the old one, and equal bytes are appended there
  have hpos : ∀ {p}, Outside (box.index.set added (box.boxA.length, data.length)) name p →
      Outside box.index name p ∧
        (box.boxA.length ≤ p → data'[p - box.boxA.length]? = data[p - box.boxA.length]?) := by
    intro p hp
    rcases hsame with ⟨hname, rfl⟩ | ⟨rfl, hgone⟩
    · refine ⟨fun o l hitem => hp o l ?_, fun _ => rfl⟩
      rw [Dict.get?_set, if_neg fun heq => hname heq.symm, hitem]
    · refine ⟨fun o l hitem => ?_, fun hge => ?_⟩
      · have := hgone o l hitem
        omega
      · rcases hp _ _ (by rw [Dict.get?_set, if_pos rfl]) with hlt | hle
        · omega
        · rw [List.getElem?_eq_none (by omega), List.getElem?_eq_none (by omega)]
  obtain ⟨hA, hB⟩ := box.length_appended data
  obtain ⟨hA', hB'⟩ := box'.length_appended data'
  have hsound := h.sound.add added data
  rw [boxes_add h.sound.length] at hsound
  rw [boxes_add h.sound.length, boxes_add h.length]
  have hzeros : List.replicate data'.length (0 : UInt8) = List.replicate data.length 0 := by
    rw [hlen]
  have hsizes := h.sizes
  have hboxes := h.sound.length
  have hboxes' := h.length
  refine ⟨hsound, ?_, h.active, ?_, h.hops, rfl, ?_, ?_, ?_⟩
  · show (box'.boxA ++ box'.appendedA data').length = (box'.boxB ++ box'.appendedB data').length
    rw [List.length_append, List.length_append]
    omega
  · show box'.index.set added (box'.boxA.length, data'.length) = _
    rw [h.index, h.sizes, hlen]
  · show (box'.boxA ++ box'.appendedA data').length = (box.boxA ++ box.appendedA data).length
    rw [List.length_append, List.length_append]
    omega
  · intro p hp
    obtain ⟨hbefore, hafter⟩ := hpos hp
    refine getElem?_append_congr h.sizes (fun _ => h.sameA hbefore) fun hge => ?_
    rw [appendedA, appendedA, h.active, hzeros]
    split
    · exact hafter hge
    · rfl
  · intro p hp
    obtain ⟨hbefore, hafter⟩ := hpos hp
    refine getElem?_append_congr (by omega) (fun _ => h.sameB hbefore) fun hge => ?_
    rw [appendedB, appendedB, h.active, hzeros, ← hboxes]
    split
    · rfl
    · exact hafter (hboxes ▸ hge)

/-- Where a removal of `l` bytes at `o` puts an interval. -/
def shifted (o l : ℕ) (item : ℕ × ℕ) : ℕ × ℕ :=
  if item.1 > o then (item.1 - l, item.2) else (item.1, item.2)

theorem remove_of_get? {removed : Name} {o l : ℕ} (hitem : box.index.get? removed = some (o, l)) :
    (box.remove removed).1 = { box with
      boxA := deleteSlice box.boxA o l, boxB := deleteSlice box.boxB o l,
      index := (box.index.erase removed).map fun _ => shifted o l, paused := false } := by
  rw [PackedFallingBox.remove, hitem]
  rfl

theorem get?_removed {removed n : Name} {o l : ℕ} {item : ℕ × ℕ}
    (h : ((box.index.erase removed).map fun _ => shifted o l).get? n = some item) :
    n ≠ removed ∧ ∃ old, box.index.get? n = some old ∧ item = shifted o l old := by
  rw [Dict.get?_map, Dict.get?_erase] at h
  split at h
  · cases h
  · rename_i hne
    obtain ⟨old, hold, rfl⟩ := Option.map_eq_some_iff.mp h
    exact ⟨hne, old, hold, rfl⟩

theorem Sound.remove (h : box.Sound) (removed : Name) : (box.remove removed).1.Sound := by
  cases hitem : box.index.get? removed with
  | none =>
    rw [PackedFallingBox.remove, hitem]
    exact ⟨h.length, h.within, h.apart⟩
  | some item =>
    obtain ⟨o, l⟩ := item
    rw [remove_of_get? hitem]
    have hwithin := h.within hitem
    have hlength := h.length
    refine ⟨?_, ?_, ?_⟩
    · exact length_deleteSlice_eq h.length o l
    · intro n p k hn
      obtain ⟨hne, ⟨p₀, k₀⟩, hold, hshift⟩ := get?_removed hn
      show p + k ≤ (deleteSlice box.boxA o l).length
      rw [length_deleteSlice hwithin]
      have := h.within hold
      have := h.apart hne hold hitem
      rw [shifted] at hshift
      dsimp only at hshift
      split at hshift <;> cases hshift <;> omega
    · intro n m p k p' k' hnm hn hm
      obtain ⟨hne, ⟨p₀, k₀⟩, hold, hshift⟩ := get?_removed hn
      obtain ⟨hne', ⟨p₁, k₁⟩, hold', hshift'⟩ := get?_removed hm
      have := h.apart hne hold hitem
      have := h.apart hne' hold' hitem
      have := h.apart hnm hold hold'
      rw [shifted] at hshift hshift'
      dsimp only at hshift hshift'
      split at hshift <;> cases hshift <;> split at hshift' <;> cases hshift' <;> omega

theorem Agree.remove (h : Agree name box box') (removed : Name) :
    Agree name (box.remove removed).1 (box'.remove removed).1 := by
  have hsound := h.sound.remove removed
  cases hitem : box.index.get? removed with
  | none =>
    have hitem' : box'.index.get? removed = none := by rw [h.index, hitem]
    rw [PackedFallingBox.remove, hitem, PackedFallingBox.remove, hitem']
    exact h.withPaused true
  | some item =>
    obtain ⟨o, l⟩ := item
    have hitem' : box'.index.get? removed = some (o, l) := by rw [h.index, hitem]
    rw [remove_of_get? hitem] at hsound
    rw [remove_of_get? hitem, remove_of_get? hitem']
    have hwithin := h.sound.within hitem
    have hsizes := h.sizes
    have hboxes := h.sound.length
    have hboxes' := h.length
    -- a position that is left comes from one outside the old interval of the name
    have hpos : ∀ {p}, Outside ((box.index.erase removed).map fun _ => shifted o l) name p →
        Outside box.index name (if p < o then p else p + l) := by
      intro p hp o₀ l₀ hold
      by_cases hname : name = removed
      · obtain ⟨rfl, rfl⟩ : o₀ = o ∧ l₀ = l := by
          rw [hname, hitem] at hold
          cases hold
          exact ⟨rfl, rfl⟩
        split <;> omega
      · have hnew : ((box.index.erase removed).map fun _ => shifted o l).get? name
            = some (shifted o l (o₀, l₀)) := by
          rw [Dict.get?_map, Dict.get?_erase, if_neg hname, hold]
          rfl
        have happart := h.sound.apart hname hold hitem
        rw [shifted] at hnew
        dsimp only at hnew
        split at hnew
        · have := hp _ _ hnew
          split <;> omega
        · have := hp _ _ hnew
          split <;> omega
    refine ⟨hsound, ?_, h.active, ?_, h.hops, rfl, ?_, ?_, ?_⟩
    · exact length_deleteSlice_eq h.length o l
    · show (box'.index.erase removed).map (fun _ => shifted o l)
        = (box.index.erase removed).map fun _ => shifted o l
      rw [h.index]
    · exact length_deleteSlice_eq h.sizes o l
    · intro p hp
      have hsource := hpos hp
      show (deleteSlice box'.boxA o l)[p]? = (deleteSlice box.boxA o l)[p]?
      rw [getElem?_deleteSlice (by omega), getElem?_deleteSlice (by omega)]
      split at hsource
      · rename_i hlt
        rw [if_pos hlt, if_pos hlt, h.sameA hsource]
      · rename_i hge
        rw [if_neg hge, if_neg hge, h.sameA hsource]
    · intro p hp
      have hsource := hpos hp
      show (deleteSlice box'.boxB o l)[p]? = (deleteSlice box.boxB o l)[p]?
      rw [getElem?_deleteSlice (by omega), getElem?_deleteSlice (by omega)]
      split at hsource
      · rename_i hlt
        rw [if_pos hlt, if_pos hlt, h.sameB hsource]
      · rename_i hge
        rw [if_neg hge, if_neg hge, h.sameB hsource]

theorem Agree.get (h : Agree name box box') (asked : Name) :
    Agree name (box.get asked).1 (box'.get asked).1 := by
  cases hitem : box.index.get? asked with
  | none =>
    have hitem' : box'.index.get? asked = none := by rw [h.index, hitem]
    rw [PackedFallingBox.get, PackedFallingBox.get, hitem, hitem']
    exact h.withPaused true
  | some item =>
    have hitem' : box'.index.get? asked = some item := by rw [h.index, hitem]
    rw [PackedFallingBox.get, PackedFallingBox.get, hitem, hitem']
    exact h.withPaused false

/-! ### Runs -/

/-- One event. -/
theorem agree_perform {event event' : Event Name} (h : Agree name box box')
    (hsame : SameBut name event event')
    (hfresh : ∀ data, event = .add name data → Empty name box) :
    Agree name (box.perform event) (box'.perform event') := by
  cases hsame with
  | same =>
    cases event with
    | hop => exact h.fall
    | get asked => exact h.get asked
    | remove removed => exact h.remove removed
    | add added data =>
      refine h.add rfl ?_
      by_cases hadded : added = name
      · exact Or.inr ⟨hadded, hfresh data (by rw [hadded])⟩
      · exact Or.inl ⟨hadded, rfl⟩
  | @add data data' hlen => exact h.add hlen.symm (Or.inr ⟨rfl, hfresh data rfl⟩)

theorem agree_performAll {events events' : List (Event Name)} (h : Agree name box box')
    (hsame : List.Forall₂ (SameBut name) events events') (hfresh : AddedFresh name box events) :
    Agree name (box.performAll events) (box'.performAll events') := by
  induction hsame generalizing box box' with
  | nil => exact h
  | cons hevent _ ih => exact ih (agree_perform h hevent hfresh.1) hfresh.2

theorem performAll_append (box : PackedFallingBox Name) (events later : List (Event Name)) :
    box.performAll (events ++ later) = (box.performAll events).performAll later :=
  List.foldl_append

theorem performAll_concat (box : PackedFallingBox Name) (events : List (Event Name))
    (event : Event Name) :
    box.performAll (events ++ [event]) = (box.performAll events).perform event :=
  box.performAll_append events [event]

theorem addedFresh_append {events : List (Event Name)} {event : Event Name}
    (h : AddedFresh name box events)
    (hevent : ∀ data, event = .add name data → Empty name (box.performAll events)) :
    AddedFresh name box (events ++ [event]) := by
  induction events generalizing box with
  | nil => exact ⟨hevent, trivial⟩
  | cons first events ih => exact ⟨h.1, ih h.2 hevent⟩

/-- The operations as callers use them: no name is added while it is there. -/
theorem addedFresh_run {events : List (Event Name)} (hrun : Run Step new events box) :
    box = new.performAll events ∧ AddedFresh name new events := by
  refine hrun.history (I := fun events box => box = new.performAll events ∧
    AddedFresh name new events) ⟨rfl, trivial⟩ ?_
  rintro events _ event box' ⟨rfl, hfresh⟩ hstep
  rw [performAll_concat]
  cases hstep with
  | hop => exact ⟨rfl, addedFresh_append hfresh nofun⟩
  | get => exact ⟨rfl, addedFresh_append hfresh nofun⟩
  | remove => exact ⟨rfl, addedFresh_append hfresh nofun⟩
  | add hname =>
    refine ⟨rfl, addedFresh_append hfresh fun data heq => ?_⟩
    cases heq
    exact empty_of_notMem hname

/-- **No trace.**  Two boxes go through the same events, but for the bytes, as many in both,
that are added under a name.  If it has no bytes in the box when it is added, they are equal
once it is gone: both buffers, the live side, the index, the number of hops and the flag. -/
theorem performAll_eq {events events' : List (Event Name)}
    (hsame : List.Forall₂ (SameBut name) events events') (hfresh : AddedFresh name new events)
    (hgone : name ∉ ((new : PackedFallingBox Name).performAll events).index.keys) :
    (new : PackedFallingBox Name).performAll events' = new.performAll events :=
  (agree_performAll (agree_new name) hsame hfresh).eq hgone

/-! ### What is left -/

theorem activeBox_fall (h : box.Sound) : box.fall.activeBox = box.activeBox := by
  by_cases hempty : box.boxA.length = 0
  · rw [PackedFallingBox.fall, if_pos hempty]
  rw [boxes_fall h.length hempty, activeBox]
  cases box.active with
  | a => rfl
  | b => rfl

theorem activeBox_add (box : PackedFallingBox Name) (added : Name) (data : Bytes) :
    (box.add added data).activeBox = box.activeBox ++ data := by
  rw [PackedFallingBox.add]
  cases hactive : box.active with
  | a => rw [activeBox, activeBox, hactive]
  | b => rw [activeBox, activeBox, hactive]

theorem index_add (box : PackedFallingBox Name) (added : Name) (data : Bytes) :
    (box.add added data).index
      = box.index.set added (box.activeBox.length, data.length) := by
  rw [PackedFallingBox.add]
  cases box.active with
  | a => rfl
  | b => rfl

theorem get_shape (box : PackedFallingBox Name) (asked : Name) :
    (box.get asked).1.activeBox = box.activeBox ∧ (box.get asked).1.index = box.index := by
  rw [PackedFallingBox.get]
  cases box.index.get? asked with
  | none => exact ⟨rfl, rfl⟩
  | some item => exact ⟨rfl, rfl⟩

theorem Sound.get (h : box.Sound) (asked : Name) : (box.get asked).1.Sound := by
  rw [PackedFallingBox.get]
  cases box.index.get? asked with
  | none => exact ⟨h.length, h.within, h.apart⟩
  | some item => exact ⟨h.length, h.within, h.apart⟩

theorem Sound.perform (h : box.Sound) (event : Event Name) : (box.perform event).Sound := by
  cases event with
  | hop => exact h.fall
  | add added data => exact h.add added data
  | get asked => exact h.get asked
  | remove removed => exact h.remove removed

theorem Sound.performAll (h : box.Sound) (events : List (Event Name)) :
    (box.performAll events).Sound := by
  induction events generalizing box with
  | nil => exact h
  | cons event events ih => exact ih (h.perform event)

/-- The two boxes have one shape and differ at a position that is in the interval of no name
in `S`. -/
structure Differ (S : Name → Prop) (box box' : PackedFallingBox Name) : Prop where
  sound : box.Sound
  sound' : box'.Sound
  index : box'.index = box.index
  length : box'.activeBox.length = box.activeBox.length
  position : ∃ p < box.activeBox.length, (∀ n, S n → Outside box.index n p) ∧
    box'.activeBox[p]? ≠ box.activeBox[p]?

variable {S : Name → Prop}

theorem Differ.ne (h : Differ S box box') : box' ≠ box := by
  rintro rfl
  obtain ⟨p, -, -, hne⟩ := h.position
  exact hne rfl

/-- A name that is added has a new interval, away from where the boxes differ. -/
theorem Differ.add (h : Differ S box box') (added : Name) (data : Bytes) :
    Differ (fun n => S n ∨ n = added) (box.add added data) (box'.add added data) := by
  obtain ⟨p, hp, hout, hne⟩ := h.position
  refine ⟨h.sound.add added data, h.sound'.add added data, ?_, ?_, p, ?_, ?_, ?_⟩
  · rw [index_add, index_add, h.index, h.length]
  · rw [activeBox_add, activeBox_add, List.length_append, List.length_append, h.length]
  · rw [activeBox_add, List.length_append]
    omega
  · intro n hn o l hitem
    rw [index_add, Dict.get?_set] at hitem
    split at hitem
    · cases hitem
      exact Or.inl hp
    · rename_i hadded
      exact hout n (hn.resolve_right hadded) o l hitem
  · rw [activeBox_add, activeBox_add, List.getElem?_append_left (h.length ▸ hp),
      List.getElem?_append_left hp]
    exact hne

/-- A name in `S` is cut out, before or after where they differ. -/
theorem Differ.remove (h : Differ S box box') {removed : Name} (hremoved : S removed) :
    Differ S (box.remove removed).1 (box'.remove removed).1 := by
  have hsound := h.sound.remove removed
  have hsound' := h.sound'.remove removed
  cases hitem : box.index.get? removed with
  | none =>
    have hitem' : box'.index.get? removed = none := by rw [h.index, hitem]
    rw [PackedFallingBox.remove, hitem] at hsound
    rw [PackedFallingBox.remove, hitem'] at hsound'
    rw [PackedFallingBox.remove, hitem, PackedFallingBox.remove, hitem']
    exact ⟨hsound, hsound', h.index, h.length, h.position⟩
  | some item =>
    obtain ⟨o, l⟩ := item
    have hitem' : box'.index.get? removed = some (o, l) := by rw [h.index, hitem]
    have hactive : ∀ {b : PackedFallingBox Name}, b.index.get? removed = some (o, l) →
        (b.remove removed).1.activeBox = deleteSlice b.activeBox o l := by
      intro b hb
      rw [remove_of_get? hb, activeBox, activeBox]
      cases b.active with
      | a => rfl
      | b => rfl
    have hwithin := (h.sound.within hitem).trans (length_activeBox h.sound.length).ge
    obtain ⟨p, hp, hout, hne⟩ := h.position
    have hcut := hout removed hremoved o l hitem
    have hlength := h.length
    refine ⟨hsound, hsound', ?_, ?_, if p < o then p else p - l, ?_, ?_, ?_⟩
    · rw [remove_of_get? hitem, remove_of_get? hitem']
      show (box'.index.erase removed).map (fun _ => shifted o l)
        = (box.index.erase removed).map fun _ => shifted o l
      rw [h.index]
    · rw [hactive hitem, hactive hitem']
      exact length_deleteSlice_eq h.length o l
    · rw [hactive hitem, length_deleteSlice hwithin]
      split <;> omega
    · intro n hn o' l' hnew
      rw [remove_of_get? hitem] at hnew
      obtain ⟨hother, ⟨o₀, l₀⟩, hold, hshift⟩ := get?_removed hnew
      have hapart := h.sound.apart hother hold hitem
      have hn := hout n hn o₀ l₀ hold
      rw [shifted] at hshift
      dsimp only at hshift
      split at hshift <;> cases hshift <;> split <;> omega
    · rw [hactive hitem, hactive hitem', getElem?_deleteSlice (by omega),
        getElem?_deleteSlice (by omega)]
      by_cases hlt : p < o
      · rw [if_pos hlt, if_pos hlt, if_pos hlt]
        exact hne
      · have hp' : p - l + l = p := by omega
        rw [if_neg hlt, if_neg (by omega), if_neg (by omega), hp']
        exact hne

/-- **One event.**  It cuts out no byte where the boxes differ, as long as no interval but those
of names in `S` is cut out. -/
theorem Differ.perform (h : Differ S box box') {event : Event Name}
    (hevent : ∀ removed, event = .remove removed → S removed) :
    Differ S (box.perform event) (box'.perform event) := by
  cases event with
  | hop =>
    refine ⟨h.sound.fall, h.sound'.fall, ?_, ?_, ?_⟩
    · show box'.fall.index = box.fall.index
      rw [index_fall, index_fall, h.index]
    · show box'.fall.activeBox.length = box.fall.activeBox.length
      rw [activeBox_fall h.sound, activeBox_fall h.sound', h.length]
    · show ∃ p < box.fall.activeBox.length, (∀ n, S n → Outside box.fall.index n p) ∧
        box'.fall.activeBox[p]? ≠ box.fall.activeBox[p]?
      rw [activeBox_fall h.sound, activeBox_fall h.sound', index_fall]
      exact h.position
  | add added data =>
    have hadd := h.add added data
    obtain ⟨p, hp, hout, hne⟩ := hadd.position
    exact ⟨hadd.sound, hadd.sound', hadd.index, hadd.length, p, hp, fun n hn => hout n (Or.inl hn),
      hne⟩
  | get asked =>
    obtain ⟨hactive, hindex⟩ := box.get_shape asked
    obtain ⟨hactive', hindex'⟩ := box'.get_shape asked
    refine ⟨h.sound.get asked, h.sound'.get asked, ?_, ?_, ?_⟩
    · exact hindex'.trans (h.index.trans hindex.symm)
    · show (box'.get asked).1.activeBox.length = (box.get asked).1.activeBox.length
      rw [hactive, hactive', h.length]
    · show ∃ p < (box.get asked).1.activeBox.length,
        (∀ n, S n → Outside (box.get asked).1.index n p) ∧
          (box'.get asked).1.activeBox[p]? ≠ (box.get asked).1.activeBox[p]?
      rw [hactive, hactive', hindex]
      exact h.position
  | remove removed => exact h.remove (hevent removed rfl)

theorem Differ.performAll {events : List (Event Name)} (h : Differ S box box')
    (hevents : ∀ event ∈ events, ∀ removed, event = .remove removed → S removed) :
    Differ S (box.performAll events) (box'.performAll events) := by
  induction events generalizing box box' with
  | nil => exact h
  | cons event events ih =>
    obtain ⟨hevent, hlater⟩ := List.forall_mem_cons.mp hevents
    exact ih (h.perform hevent) hlater

/-- Boxes that are given other bytes under a name differ there. -/
theorem differ_add (h : box.Sound) {data data' : Bytes} (hlen : data'.length = data.length)
    (hne : data' ≠ data) :
    Differ (· ≠ name) (box.add name data) (box.add name data') := by
  obtain ⟨i, hi⟩ : ∃ i, data'[i]? ≠ data[i]? := by
    by_contra hall
    exact hne (List.ext_getElem? fun i => not_not.mp (not_exists.mp hall i))
  have hlt : i < data.length := by
    by_contra hge
    rw [List.getElem?_eq_none (by omega), List.getElem?_eq_none (by omega)] at hi
    exact hi rfl
  have hread : ∀ bytes : Bytes,
      (box.activeBox ++ bytes)[box.activeBox.length + i]? = bytes[i]? := by
    intro bytes
    rw [List.getElem?_append_right (by omega), Nat.add_sub_cancel_left]
  refine ⟨h.add name data, h.add name data', ?_, ?_, box.activeBox.length + i, ?_, ?_, ?_⟩
  · rw [index_add, index_add, hlen]
  · rw [activeBox_add, activeBox_add, List.length_append, List.length_append, hlen]
  · rw [activeBox_add, List.length_append]
    omega
  · intro n hn o l hitem
    rw [index_add, Dict.get?_set, if_neg hn] at hitem
    have := (h.within hitem).trans (length_activeBox h.length).ge
    omega
  · rw [activeBox_add, activeBox_add, hread, hread]
    exact hi

/-! ### The condition -/

/-- A name that is there after an event has been added by it, or was there and has been left
alone. -/
theorem get?_perform {event : Event Name} {o l : ℕ}
    (hitem : (box.perform event).index.get? name = some (o, l)) :
    (∃ data, event = .add name data ∧ data.length = l) ∨
      (∀ removed, event = .remove removed → removed ≠ name) ∧
        ∃ o, box.index.get? name = some (o, l) := by
  cases event with
  | hop =>
    change box.fall.index.get? name = _ at hitem
    rw [index_fall] at hitem
    exact Or.inr ⟨fun _ heq => (by cases heq), o, hitem⟩
  | get asked =>
    change (box.get asked).1.index.get? name = _ at hitem
    rw [(get_shape _ asked).2] at hitem
    exact Or.inr ⟨fun _ heq => (by cases heq), o, hitem⟩
  | add added data =>
    change (box.add added data).index.get? name = _ at hitem
    rw [index_add, Dict.get?_set] at hitem
    split at hitem
    · rename_i hadded
      subst hadded
      exact Or.inl ⟨data, rfl, (Prod.mk.inj (Option.some.inj hitem)).2⟩
    · exact Or.inr ⟨fun _ heq => (by cases heq), o, hitem⟩
  | remove removed =>
    refine Or.inr ?_
    change (box.remove removed).1.index.get? name = _ at hitem
    cases hold : box.index.get? removed with
    | none =>
      rw [PackedFallingBox.remove, hold] at hitem
      refine ⟨fun other heq => ?_, o, hitem⟩
      cases heq
      rintro rfl
      exact Option.some_ne_none _ (hitem.symm.trans hold)
    | some item =>
      rw [remove_of_get? hold] at hitem
      obtain ⟨hne, ⟨o₀, l₀⟩, hget, hshift⟩ := get?_removed hitem
      have hlen : l = l₀ := by
        rw [shifted] at hshift
        dsimp only at hshift
        split at hshift <;> exact (Prod.mk.inj hshift).2
      subst hlen
      refine ⟨fun other heq => ?_, o₀, hget⟩
      cases heq
      exact hne.symm

/-- A name that is there has been added, and left alone since. -/
theorem exists_add {events : List (Event Name)} {o l : ℕ}
    (hitem : ((new : PackedFallingBox Name).performAll events).index.get? name = some (o, l)) :
    ∃ before data since, events = before ++ .add name data :: since ∧ data.length = l ∧
      ∀ event ∈ since, ∀ removed, event = .remove removed → removed ≠ name := by
  induction events using List.reverseRecOn generalizing o with
  | nil => cases hitem
  | append_singleton events event ih =>
    rw [performAll_concat] at hitem
    obtain ⟨data, rfl, hlen⟩ | ⟨hevent, o', hold⟩ := get?_perform hitem
    · exact ⟨events, data, [], rfl, hlen, List.forall_mem_nil _⟩
    · obtain ⟨before, data, since, rfl, hlen, hsince⟩ := ih hold
      refine ⟨before, data, since ++ [event], by simp, hlen, ?_⟩
      exact List.forall_mem_append.mpr ⟨hsince, List.forall_mem_singleton.mpr hevent⟩

/-- Where the condition fails, the name is added over bytes that it has. -/
theorem exists_of_not_addedFresh {events : List (Event Name)}
    (h : ¬AddedFresh name box events) : ∃ before data after o l,
      events = before ++ .add name data :: after ∧
      (box.performAll before).index.get? name = some (o, l) ∧ l ≠ 0 := by
  induction events generalizing box with
  | nil => exact absurd trivial h
  | cons event events ih =>
    by_cases hevent : ∀ data, event = .add name data → Empty name box
    · obtain ⟨before, data, after, o, l, rfl, hitem, hl⟩ := ih fun hrest => h ⟨hevent, hrest⟩
      exact ⟨event :: before, data, after, o, l, rfl, hitem, hl⟩
    · simp only [Empty] at hevent
      push Not at hevent
      obtain ⟨data, rfl, o, l, hitem, hl⟩ := hevent
      exact ⟨[], data, events, o, l, rfl, hitem, hl⟩

omit [DecidableEq Name] in
theorem forall₂_same (events : List (Event Name)) :
    List.Forall₂ (SameBut name) events events :=
  List.forall₂_same.mpr fun event _ => .same event

/-- **Removal leaves no trace** exactly when the name is never added while it has bytes in the
box: whatever bytes have been added under it, once it is gone the box is the same. -/
theorem traceless_iff {events : List (Event Name)}
    (hgone : name ∉ ((new : PackedFallingBox Name).performAll events).index.keys) :
    (∀ events', List.Forall₂ (SameBut name) events events' →
      (new : PackedFallingBox Name).performAll events' = new.performAll events) ↔
      AddedFresh name new events := by
  refine ⟨fun htraceless => ?_, fun hfresh events' hsame => performAll_eq hsame hfresh hgone⟩
  by_contra hstale
  obtain ⟨before, data₁, after, o, l, rfl, hitem, hl⟩ := exists_of_not_addedFresh hstale
  obtain ⟨pre, data, since, rfl, hlen, hsince⟩ := exists_add hitem
  -- the bytes that are added over, all of them changed
  have hne : data.map (· + 1) ≠ data := by
    cases data with
    | nil => exact absurd hlen.symm hl
    | cons byte data =>
      intro heq
      have hbyte : byte + 1 = byte := (List.cons.inj heq).1
      simp at hbyte
  have hmap : (data.map (· + 1)).length = data.length := List.length_map _
  have hchanged : List.Forall₂ (SameBut name)
      ((pre ++ .add name data :: since) ++ .add name data₁ :: after)
      ((pre ++ .add name (data.map (· + 1)) :: since) ++ .add name data₁ :: after) :=
    List.rel_append (List.rel_append (forall₂_same pre)
      (.cons (.add hmap.symm) (forall₂_same since))) (forall₂_same _)
  -- they stay apart while the name is there, after it is added again, and from then on
  have hadded := (differ_add (sound_new.performAll pre) hmap hne).performAll hsince
  have hagain := hadded.add name data₁
  have hend := hagain.performAll fun event (_ : event ∈ after) removed _ => em' (removed = name)
  refine hend.ne ?_
  have hall := htraceless _ hchanged
  rw [performAll_append, performAll_append, performAll_append, performAll_append] at hall
  exact hall

/-- The piece is moved by a hop, followed by another, asked for twice, shifted and added again
once it is gone. -/
theorem traceless_iff_sample :
    (∀ events', List.Forall₂ (SameBut 1)
        [.add 0 [9], .add 1 [1, 2], .hop, .add 2 [7], .remove 0, .get 1, .remove 1, .get 1,
          .add 1 [], .add 1 [5], .hop, .remove 1] events' →
      (new : PackedFallingBox ℕ).performAll events' = new.performAll
        [.add 0 [9], .add 1 [1, 2], .hop, .add 2 [7], .remove 0, .get 1, .remove 1, .get 1,
          .add 1 [], .add 1 [5], .hop, .remove 1]) ↔
      AddedFresh 1 (new : PackedFallingBox ℕ)
        [.add 0 [9], .add 1 [1, 2], .hop, .add 2 [7], .remove 0, .get 1, .remove 1, .get 1,
          .add 1 [], .add 1 [5], .hop, .remove 1] :=
  traceless_iff (by decide)

/-- A name that is added twice and removed once: the first bytes are still in the buffer. -/
theorem remnant :
    (∀ byte : UInt8, byte ∈
      ((new : PackedFallingBox ℕ).performAll [.add 0 [byte], .add 0 [2], .remove 0]).boxA) ∧
    List.Forall₂ (SameBut 0) [.add 0 [1], .add 0 [2], .remove 0]
      [.add 0 [3], .add 0 [2], .remove 0] ∧
    0 ∉ ((new : PackedFallingBox ℕ).performAll
      [.add 0 [1], .add 0 [2], .remove 0]).index.keys ∧
    (new : PackedFallingBox ℕ).performAll [.add 0 [3], .add 0 [2], .remove 0]
      ≠ new.performAll [.add 0 [1], .add 0 [2], .remove 0] := by
  refine ⟨fun byte => List.mem_singleton.mpr rfl, .cons (.add rfl) (forall₂_same _), by decide,
    fun heq => ?_⟩
  exact absurd (congrArg PackedFallingBox.boxA heq) (by decide)

end PackedFallingBox
