/-
`packed_box.py`: many pieces back to back in one falling buffer.

The index of the box is a dictionary, so its items stand in the order of insertion, and
that is the order in which the pieces lie in the buffer: `Packed` says so.  Removing a
piece shifts the items after it, which are those with a greater offset and perhaps some
of length zero, for which the shift is zero as well.

* `get_eq`: in every state of every run, `get` gives the bytes last added under a name.
-/
import Mathlib
import VStorage.Dict
import VStorage.FallingBox
import VStorage.Runs

/-- `PackedFallingBox`. -/
structure PackedFallingBox (Name : Type*) where
  boxA : Bytes
  boxB : Bytes
  active : Side
  index : Dict Name (ℕ × ℕ)
  hops : ℕ
  paused : Bool

namespace PackedFallingBox

variable {Name : Type*}

/-- `__init__`. -/
def new : PackedFallingBox Name where
  boxA := []
  boxB := []
  active := .a
  index := .empty
  hops := 0
  paused := false

/-- One round of `_fall_forever`. -/
def fall (box : PackedFallingBox Name) : PackedFallingBox Name :=
  let length := box.boxA.length
  if length = 0 then box
  else
    match box.active with
    | .a => { box with
        boxB := copyChunks length box.boxA box.boxB, active := .b, hops := box.hops + 1 }
    | .b => { box with
        boxA := copyChunks length box.boxB box.boxA, active := .a, hops := box.hops + 1 }

/-- A hop does not touch the index, nor the flag. -/
theorem index_fall (box : PackedFallingBox Name) : box.fall.index = box.index := by
  obtain ⟨boxA, boxB, active, index, hops, paused⟩ := box
  rw [fall]
  split
  · rfl
  · cases active with
    | a => simp only
    | b => simp only

theorem paused_fall (box : PackedFallingBox Name) : box.fall.paused = box.paused := by
  obtain ⟨boxA, boxB, active, index, hops, paused⟩ := box
  rw [fall]
  split
  · rfl
  · cases active with
    | a => simp only
    | b => simp only

/-- The buffer that holds the data. -/
def activeBox (box : PackedFallingBox Name) : Bytes :=
  match box.active with
  | .a => box.boxA
  | .b => box.boxB

/-- `del box[offset:offset + length]`. -/
def deleteSlice (bytes : Bytes) (offset length : ℕ) : Bytes :=
  bytes.take offset ++ bytes.drop (offset + length)

section Operations

variable [DecidableEq Name]

/-- `add`. -/
def add (name : Name) (data : Bytes) (box : PackedFallingBox Name) : PackedFallingBox Name :=
  let index := box.index.set name (box.activeBox.length, data.length)
  let zeros := List.replicate data.length 0
  match box.active with
  | .a => { box with
      boxA := box.boxA ++ data, boxB := box.boxB ++ zeros, index := index, paused := false }
  | .b => { box with
      boxB := box.boxB ++ data, boxA := box.boxA ++ zeros, index := index, paused := false }

/-- `get`.  An exception leaves the box paused. -/
def get (name : Name) (box : PackedFallingBox Name) :
    PackedFallingBox Name × Except PyError Bytes :=
  match box.index.get? name with
  | none => ({ box with paused := true }, .error .keyError)
  | some (offset, length) =>
    ({ box with paused := false }, .ok ((box.activeBox.drop offset).take length))

/-- `remove`. -/
def remove (name : Name) (box : PackedFallingBox Name) :
    PackedFallingBox Name × Except PyError Unit :=
  match box.index.get? name with
  | none => ({ box with paused := true }, .error .keyError)
  | some (offset, length) =>
    ({ box with
        boxA := deleteSlice box.boxA offset length
        boxB := deleteSlice box.boxB offset length
        index := (box.index.erase name).map fun _ (o, l) =>
          if o > offset then (o - length, l) else (o, l)
        paused := false }, .ok ())

end Operations

/-! ### Layout -/

/-- The items of pieces that lie back to back from `offset` on. -/
def layout (offset : ℕ) : List (Name × Bytes) → List (Name × (ℕ × ℕ))
  | [] => []
  | (name, data) :: pieces =>
    (name, (offset, data.length)) :: layout (offset + data.length) pieces

/-- The pieces, back to back. -/
def pack (pieces : List (Name × Bytes)) : Bytes := (pieces.map Prod.snd).flatten

@[simp] theorem pack_nil : pack ([] : List (Name × Bytes)) = [] := rfl

@[simp] theorem pack_cons (piece : Name × Bytes) (pieces : List (Name × Bytes)) :
    pack (piece :: pieces) = piece.2 ++ pack pieces := rfl

theorem pack_append (pieces pieces' : List (Name × Bytes)) :
    pack (pieces ++ pieces') = pack pieces ++ pack pieces' := by
  rw [pack, List.map_append, List.flatten_append]
  rfl

theorem layout_append (offset : ℕ) (pieces pieces' : List (Name × Bytes)) :
    layout offset (pieces ++ pieces')
      = layout offset pieces ++ layout (offset + (pack pieces).length) pieces' := by
  induction pieces generalizing offset with
  | nil => rfl
  | cons piece pieces ih =>
    rw [List.cons_append, layout, ih, layout, List.cons_append, pack_cons, List.length_append,
      Nat.add_assoc]

theorem keys_layout (offset : ℕ) (pieces : List (Name × Bytes)) :
    (layout offset pieces).map Prod.fst = pieces.map Prod.fst := by
  induction pieces generalizing offset with
  | nil => rfl
  | cons piece pieces ih => rw [layout, List.map_cons, List.map_cons, ih]

/-- Items lie between the offset and the end. -/
theorem layout_bounds {offset : ℕ} {pieces : List (Name × Bytes)} {item : Name × (ℕ × ℕ)}
    (h : item ∈ layout offset pieces) :
    offset ≤ item.2.1 ∧ item.2.1 + item.2.2 ≤ offset + (pack pieces).length := by
  induction pieces generalizing offset with
  | nil => exact nomatch h
  | cons piece pieces ih =>
    rw [pack_cons, List.length_append]
    rcases List.mem_cons.mp h with rfl | h
    · exact ⟨le_rfl, by dsimp only; omega⟩
    · obtain ⟨hlo, hhi⟩ := ih h
      exact ⟨by omega, by omega⟩

/-- Exactly one item lies at a position within the pieces. -/
theorem layout_exact {pieces : List (Name × Bytes)} {offset p : ℕ} (hlo : offset ≤ p)
    (hhi : p < offset + (pack pieces).length) :
    ∃ item ∈ layout offset pieces, (item.2.1 ≤ p ∧ p < item.2.1 + item.2.2) ∧
      ∀ other ∈ layout offset pieces, other.2.1 ≤ p → p < other.2.1 + other.2.2 → other = item := by
  induction pieces generalizing offset with
  | nil => exact absurd hhi (Nat.not_lt.mpr hlo)
  | cons piece pieces ih =>
    rw [pack_cons, List.length_append] at hhi
    rcases Nat.lt_or_ge p (offset + piece.2.length) with hlt | hge
    · refine ⟨_, List.mem_cons_self, ⟨hlo, hlt⟩, fun other hother hle _ => ?_⟩
      rcases List.mem_cons.mp hother with rfl | hother
      · rfl
      · have := (layout_bounds hother).1
        omega
    · obtain ⟨item, hitem, hin, hunique⟩ := ih hge (by omega)
      refine ⟨item, List.mem_cons_of_mem _ hitem, hin, fun other hother hle hlt => ?_⟩
      rcases List.mem_cons.mp hother with rfl | hother
      · exact absurd hlt (Nat.not_lt.mpr hge)
      · exact hunique other hother hle hlt

/-- The box holds these pieces, in this order. -/
structure Packed (pieces : List (Name × Bytes)) (box : PackedFallingBox Name) : Prop where
  length : box.boxA.length = box.boxB.length
  active : box.activeBox = pack pieces
  index : box.index.items = layout 0 pieces

variable {pieces pre post : List (Name × Bytes)} {box : PackedFallingBox Name} {name : Name}
  {data : Bytes}

theorem packed_new : Packed [] (new : PackedFallingBox Name) := ⟨rfl, rfl, rfl⟩

/-- A hop keeps the pieces. -/
theorem Packed.fall (h : Packed pieces box) : Packed pieces box.fall := by
  obtain ⟨hlen, hpack, hindex⟩ := h
  rw [PackedFallingBox.fall]
  split
  · exact ⟨hlen, hpack, hindex⟩
  cases hactive : box.active with
  | a =>
    rw [activeBox, hactive] at hpack
    dsimp only
    rw [copyChunks_eq hlen.symm]
    exact ⟨rfl, hpack, hindex⟩
  | b =>
    rw [activeBox, hactive] at hpack
    dsimp only
    rw [hlen, copyChunks_eq hlen]
    exact ⟨rfl, hpack, hindex⟩

theorem Packed.nodup (h : Packed pieces box) : (pieces.map Prod.fst).Nodup := by
  have := box.index.nodup
  rwa [h.index, keys_layout] at this

theorem Packed.mem_keys (h : Packed pieces box) :
    name ∈ box.index.keys ↔ name ∈ pieces.map Prod.fst := by
  rw [Dict.keys, h.index, keys_layout]

theorem Packed.length_boxA (h : Packed pieces box) : box.boxA.length = (pack pieces).length := by
  rw [← h.active, activeBox]
  cases box.active with
  | a => rfl
  | b => exact h.length

theorem Packed.paused (h : Packed pieces box) (paused : Bool) :
    Packed pieces { box with paused := paused } := ⟨h.length, h.active, h.index⟩

/-- A name that is there splits the pieces. -/
theorem exists_split (h : name ∈ pieces.map Prod.fst) :
    ∃ pre data post, pieces = pre ++ (name, data) :: post := by
  obtain ⟨⟨_, data⟩, hmem, rfl⟩ := List.mem_map.mp h
  obtain ⟨pre, post, rfl⟩ := List.append_of_mem hmem
  exact ⟨pre, data, post, rfl⟩

theorem deleteSlice_pack (pre post data : Bytes) :
    deleteSlice (pre ++ (data ++ post)) pre.length data.length = pre ++ post := by
  rw [deleteSlice, List.take_left, ← List.drop_drop, List.drop_left, List.drop_left]

theorem length_deleteSlice_eq {bytes bytes' : Bytes} (h : bytes.length = bytes'.length)
    (offset length : ℕ) :
    (deleteSlice bytes offset length).length = (deleteSlice bytes' offset length).length := by
  rw [deleteSlice, deleteSlice, List.length_append, List.length_append, List.length_take,
    List.length_take, List.length_drop, List.length_drop, h]

/-- How `remove` shifts an item. -/
def shift (offset length : ℕ) (item : Name × (ℕ × ℕ)) : Name × (ℕ × ℕ) :=
  (item.1, if item.2.1 > offset then (item.2.1 - length, item.2.2) else (item.2.1, item.2.2))

theorem map_shift_before {offset : ℕ} (hoffset : (pack pieces).length = offset) (length : ℕ) :
    (layout 0 pieces).map (shift offset length) = layout 0 pieces := by
  refine (List.map_congr_left fun item hitem => ?_).trans (List.map_id _)
  obtain ⟨-, hhi⟩ := layout_bounds hitem
  rw [shift, if_neg (by omega)]
  rfl

/-- An item that is not shifted though it comes after has no distance to go. -/
theorem map_shift_after {offset base : ℕ} (hbase : offset ≤ base) (length : ℕ) :
    (layout (base + length) pieces).map (shift offset length) = layout base pieces := by
  induction pieces generalizing base with
  | nil => rfl
  | cons piece pieces ih =>
    rw [layout, layout, List.map_cons, Nat.add_right_comm, ih (by omega)]
    congr 1
    rw [shift]
    dsimp only
    split
    · rw [Nat.add_sub_cancel]
    · have : base + length = base := by omega
      rw [this]

section Operations

variable [DecidableEq Name]

theorem Packed.add (h : Packed pieces box) (hname : name ∉ pieces.map Prod.fst) :
    Packed (pieces ++ [(name, data)]) (box.add name data) := by
  obtain ⟨hlen, hpack, hindex⟩ := h
  have hkeys : name ∉ box.index.keys := by rwa [Dict.keys, hindex, keys_layout]
  have hitems : (box.index.set name (box.activeBox.length, data.length)).items
      = layout 0 (pieces ++ [(name, data)]) := by
    rw [Dict.items_set_of_notMem hkeys, hindex, layout_append, hpack, Nat.zero_add]
    rfl
  have hpacked : pack (pieces ++ [(name, data)]) = pack pieces ++ data := by
    rw [pack_append, pack_cons, pack_nil, List.append_nil]
  rw [PackedFallingBox.add]
  cases hactive : box.active with
  | a =>
    refine ⟨?_, ?_, hitems⟩
    · simp [hlen]
    · rw [activeBox, hactive] at hpack
      rw [activeBox, hpacked, ← hpack]
  | b =>
    refine ⟨?_, ?_, hitems⟩
    · simp [hlen]
    · rw [activeBox, hactive] at hpack
      rw [activeBox, hpacked, ← hpack]

theorem lookup_eq_none_of_notMem (h : name ∉ pieces.map Prod.fst) : pieces.lookup name = none := by
  refine List.lookup_eq_none_iff.mpr fun item hitem => ?_
  exact bne_iff_ne.mpr fun heq => h (List.mem_map.mpr ⟨item, hitem, heq.symm⟩)

theorem Packed.get?_index (h : Packed (pre ++ (name, data) :: post) box) :
    box.index.get? name = some ((pack pre).length, data.length) := by
  rw [Dict.get?_eq_some, h.index, layout_append, Nat.zero_add, layout]
  exact List.mem_append_right _ List.mem_cons_self

theorem Packed.get (h : Packed pieces box) (name : Name) :
    (box.get name).2 = match pieces.lookup name with
      | some data => .ok data
      | none => .error .keyError := by
  by_cases hname : name ∈ pieces.map Prod.fst
  · obtain ⟨pre, data, post, rfl⟩ := exists_split hname
    have hlookup : (pre ++ (name, data) :: post).lookup name = some data := by
      have hpre : name ∉ pre.map Prod.fst := by
        have hnodup := h.nodup
        rw [List.map_append, List.map_cons] at hnodup
        exact fun hmem => (List.disjoint_of_nodup_append hnodup) hmem List.mem_cons_self
      rw [List.lookup_append, List.lookup_cons_self, lookup_eq_none_of_notMem hpre]
      rfl
    rw [hlookup, PackedFallingBox.get, h.get?_index]
    dsimp only
    rw [h.active, pack_append, pack_cons, List.drop_left, List.take_left]
  · have hnone : box.index.get? name = none :=
      Dict.get?_eq_none.mpr fun hmem => hname (h.mem_keys.mp hmem)
    rw [lookup_eq_none_of_notMem hname, PackedFallingBox.get, hnone]

theorem Packed.remove (h : Packed (pre ++ (name, data) :: post) box) :
    (box.remove name).2 = .ok () ∧ Packed (pre ++ post) (box.remove name).1 := by
  rw [PackedFallingBox.remove, h.get?_index]
  refine ⟨rfl, length_deleteSlice_eq h.length _ _, ?_, ?_⟩
  · have hpack := h.active
    rw [pack_append, pack_cons] at hpack
    rw [pack_append, ← deleteSlice_pack (pack pre) (pack post) data, ← hpack]
    rw [activeBox, activeBox]
    dsimp only
    cases box.active <;> rfl
  · have hnodup := h.nodup
    rw [List.map_append, List.map_cons] at hnodup
    have hpre : ∀ item ∈ layout 0 pre, item.1 ≠ name := by
      rintro item hitem rfl
      refine List.disjoint_of_nodup_append hnodup ?_ List.mem_cons_self
      rw [← keys_layout 0 pre]
      exact List.mem_map_of_mem hitem
    have hpost : ∀ item ∈ layout ((pack pre).length + data.length) post, item.1 ≠ name := by
      rintro item hitem rfl
      refine (List.nodup_cons.mp (List.nodup_append.mp hnodup).2.1).1 ?_
      rw [← keys_layout ((pack pre).length + data.length) post]
      exact List.mem_map_of_mem hitem
    have hfilter : (box.index.erase name).items
        = layout 0 pre ++ layout ((pack pre).length + data.length) post := by
      rw [Dict.items_erase, h.index, layout_append, Nat.zero_add, layout, List.filter_append,
        List.filter_cons, if_neg (by simp), List.filter_eq_self.mpr, List.filter_eq_self.mpr]
      · exact fun item hitem => decide_eq_true (hpost item hitem)
      · exact fun item hitem => decide_eq_true (hpre item hitem)
    show (box.index.erase name).items.map (shift (pack pre).length data.length) = _
    rw [hfilter, List.map_append, map_shift_before rfl, map_shift_after le_rfl, layout_append,
      Nat.zero_add]

/-! ### The finite map -/

/-- The intervals of the index make up `0 .. length`, with no gap and no overlap. -/
structure Tiles (index : Dict Name (ℕ × ℕ)) (length : ℕ) : Prop where
  within : ∀ name o l, index.get? name = some (o, l) → o + l ≤ length
  exact : ∀ p < length, ∃! name, ∃ o l, index.get? name = some (o, l) ∧ o ≤ p ∧ p < o + l

inductive Event (Name : Type*)
  | hop
  | add (name : Name) (data : Bytes)
  | get (name : Name)
  | remove (name : Name)

/-- What an event does to the map from names to bytes. -/
def Event.apply : Event Name → (Name → Option Bytes) → Name → Option Bytes
  | .hop, m => m
  | .add name data, m => Function.update m name (some data)
  | .get _, m => m
  | .remove name, m => Function.update m name none

/-- The map after some events. -/
def contents (events : List (Event Name)) : Name → Option Bytes :=
  events.foldl (fun m event => event.apply m) fun _ => none

/-- The name that an event puts in or takes out. -/
def Event.changes : Event Name → Option Name
  | .hop | .get _ => none
  | .add name _ | .remove name => some name

/-- A hop at any time, and the operations as callers may use them; each has the lock. -/
inductive Step : PackedFallingBox Name → Event Name → PackedFallingBox Name → Prop
  | hop {box : PackedFallingBox Name} : Step box .hop box.fall
  | add {box : PackedFallingBox Name} {name : Name} {data : Bytes} : name ∉ box.index.keys →
      Step box (.add name data) (box.add name data)
  | get {box : PackedFallingBox Name} {name : Name} : name ∈ box.index.keys →
      Step box (.get name) (box.get name).1
  | remove {box : PackedFallingBox Name} {name : Name} : name ∈ box.index.keys →
      Step box (.remove name) (box.remove name).1

theorem contents_append (events : List (Event Name)) (event : Event Name) :
    contents (events ++ [event]) = event.apply (contents events) := by
  rw [contents, List.foldl_append]
  rfl

/-- The pieces are those of the map. -/
def Represents (pieces : List (Name × Bytes)) (m : Name → Option Bytes) : Prop :=
  ∀ name, pieces.lookup name = m name

theorem Represents.add {m : Name → Option Bytes} (h : Represents pieces m)
    (hname : name ∉ pieces.map Prod.fst) :
    Represents (pieces ++ [(name, data)]) (Function.update m name (some data)) := by
  intro other
  rw [List.lookup_append, Function.update_apply, List.lookup_cons, List.lookup_nil]
  by_cases hother : other = name
  · rw [if_pos hother, hother, lookup_eq_none_of_notMem hname, beq_self_eq_true]
    rfl
  · rw [if_neg hother, beq_false_of_ne hother, h other]
    exact Option.or_none

theorem Represents.remove {m : Name → Option Bytes}
    (hnodup : ((pre ++ (name, data) :: post).map Prod.fst).Nodup)
    (h : Represents (pre ++ (name, data) :: post) m) :
    Represents (pre ++ post) (Function.update m name none) := by
  intro other
  rw [Function.update_apply]
  by_cases hother : other = name
  · subst hother
    rw [if_pos rfl]
    refine lookup_eq_none_of_notMem fun hmem => ?_
    rw [List.map_append, List.map_cons] at hnodup
    rw [List.map_append] at hmem
    exact (List.nodup_cons.mp (List.nodup_middle.mp hnodup)).1 hmem
  · rw [if_neg hother, ← h other, List.lookup_append, List.lookup_append, List.lookup_cons,
      beq_false_of_ne hother]

/-- Every step keeps a box packed, with the pieces of the map. -/
theorem Packed.step {box' : PackedFallingBox Name} {event : Event Name}
    {m : Name → Option Bytes} (h : Packed pieces box) (hm : Represents pieces m)
    (hstep : Step box event box') :
    ∃ pieces', Packed pieces' box' ∧ Represents pieces' (event.apply m) := by
  cases hstep with
  | hop => exact ⟨pieces, h.fall, hm⟩
  | add hname =>
    have hnot := fun hmem => hname (h.mem_keys.mpr hmem)
    exact ⟨_, h.add hnot, hm.add hnot⟩
  | get hname =>
    refine ⟨pieces, ?_, hm⟩
    obtain ⟨_, hsome⟩ := Dict.mem_keys.mp hname
    rw [PackedFallingBox.get, hsome]
    exact h.paused false
  | remove hname =>
    obtain ⟨pre, data, post, rfl⟩ := exists_split (h.mem_keys.mp hname)
    exact ⟨pre ++ post, h.remove.2, hm.remove h.nodup⟩

theorem Packed.run {events : List (Event Name)} (hrun : Run Step new events box) :
    ∃ pieces, Packed pieces box ∧ Represents pieces (contents events) := by
  induction hrun with
  | nil => exact ⟨[], packed_new, fun _ => rfl⟩
  | snoc _ hstep ih =>
    obtain ⟨pieces, h, hm⟩ := ih
    rw [contents_append]
    exact h.step hm hstep

theorem Packed.tiles (h : Packed pieces box) : Tiles box.index box.boxA.length where
  within name o l hitem := by
    rw [Dict.get?_eq_some, h.index] at hitem
    obtain ⟨-, hhi⟩ := layout_bounds hitem
    dsimp only at hhi
    rw [h.length_boxA]
    omega
  exact p hp := by
    rw [h.length_boxA, ← Nat.zero_add (pack pieces).length] at hp
    obtain ⟨⟨name, o, l⟩, hitem, ⟨hle, hlt⟩, hunique⟩ := layout_exact (Nat.zero_le p) hp
    refine ⟨name, ⟨o, l, ?_, hle, hlt⟩, ?_⟩
    · rw [Dict.get?_eq_some, h.index]
      exact hitem
    · rintro name' ⟨o', l', hitem', hle', hlt'⟩
      rw [Dict.get?_eq_some, h.index] at hitem'
      exact (Prod.mk.inj (hunique _ hitem' hle' hlt')).1

/-- What `get` gives for an entry of the map. -/
def got : Option Bytes → Except PyError Bytes
  | some data => .ok data
  | none => .error .keyError

theorem Packed.get_contents {m : Name → Option Bytes} (h : Packed pieces box)
    (hm : Represents pieces m) (name : Name) : (box.get name).2 = got (m name) := by
  rw [h.get, hm name]
  cases m name <;> rfl

/-- **A packed box is a finite map.**  After any interleaving of hops with `add`, `get` and
`remove`, `get` gives what the map has under a name, and removing a name that is there works;
the buffers have one length, which the intervals of the index tile; and the next event changes
what `get` gives only for the name that it puts in or takes out. -/
theorem get_eq {events : List (Event Name)} (hrun : Run Step new events box) :
    (∀ name, (box.get name).2 = got (contents events name)) ∧
      (∀ name ∈ box.index.keys, (box.remove name).2 = .ok ()) ∧
      box.boxA.length = box.boxB.length ∧ Tiles box.index box.boxA.length ∧
      ∀ event box', Step box event box' → ∀ name, event.changes ≠ some name →
        (box'.get name).2 = (box.get name).2 := by
  obtain ⟨pieces, h, hm⟩ := Packed.run hrun
  refine ⟨h.get_contents hm, fun name hname => ?_, h.length, h.tiles,
    fun event box' hstep name hname => ?_⟩
  · obtain ⟨pre, data, post, rfl⟩ := exists_split (h.mem_keys.mp hname)
    exact h.remove.1
  · obtain ⟨pieces', h', hm'⟩ := h.step hm hstep
    rw [h'.get_contents hm', h.get_contents hm]
    congr 1
    cases event with
    | hop => rfl
    | get => rfl
    | add added data => exact Function.update_of_ne (fun heq => hname (congrArg some heq.symm)) _ _
    | remove removed => exact Function.update_of_ne (fun heq => hname (congrArg some heq.symm)) _ _

theorem get_eq_three :
    ∃ box : PackedFallingBox ℕ,
      Run Step new [.add 1 [], .add 2 [5, 6], .hop, .add 3 [7], .remove 2] box ∧
      (∀ name, (box.get name).2 = got (contents
        [.add 1 [], .add 2 [5, 6], .hop, .add 3 [7], .remove 2] name)) ∧
      (∀ name ∈ box.index.keys, (box.remove name).2 = .ok ()) ∧
      box.boxA.length = box.boxB.length ∧ Tiles box.index box.boxA.length ∧
      ∀ event box', Step box event box' → ∀ name, event.changes ≠ some name →
        (box'.get name).2 = (box.get name).2 := by
  have hrun : Run Step (new : PackedFallingBox ℕ)
      [.add 1 [], .add 2 [5, 6], .hop, .add 3 [7], .remove 2] _ :=
    ((((Run.single (.add (by decide))).snoc (.add (by decide))).snoc .hop).snoc
      (.add (by decide))).snoc (.remove (by decide))
  exact ⟨_, hrun, get_eq hrun⟩

end Operations

end PackedFallingBox
