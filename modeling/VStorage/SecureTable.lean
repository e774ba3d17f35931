/-
The table of the storage, as a store of files.

`Inv files s` says that the table of `s` holds `files`, that every box belongs to one call, and
that the boxes that have been collapsed are those of forgotten files that their `forget` has come
to.  Every step keeps it.

* `refines`: the storage is a store of files.
-/
import Mathlib
import VStorage.SecureBoxes

namespace SecureFiles

open ChunkedSecureBox
open KeyedStore (Alike Refines)
open Splitter (Disk)

variable {FileId : Type*} {P : Primitives}

/-! ### The invariant -/

/-- The boxes of different calls, or at different places of one, are different. -/
def State.Apart (s : State FileId) : Prop :=
  ∀ {fileId fileId' : FileId} {c c' : Call} {k k' b : ℕ}, s.calls fileId = some c →
    s.calls fileId' = some c' → c.boxes[k]? = some b → c'.boxes[k']? = some b →
    fileId = fileId' ∧ k = k'

/-- The box belongs to the call. -/
def State.Owns (s : State FileId) (fileId : FileId) (c : Call) (b : ℕ) : Prop :=
  s.calls fileId = some c ∧ b ∈ c.boxes

variable {s : State FileId}

/-- The boxes of an entry are those of the call. -/
theorem entry_box {c : Call} (hlen : c.boxes.length = 3) (size : ℕ) (p : Piece) :
    c.boxes[place p]? = some ((c.entry size).box p) := by
  have hlt : place p < c.boxes.length := by
    rw [hlen]
    cases p <;> decide
  rw [List.getElem?_eq_getElem hlt]
  exact congrArg some (List.getElem_eq_getD 0)

theorem boxes_entry {c : Call} (hlen : c.boxes.length = 3) (size : ℕ) :
    (c.entry size).boxes = c.boxes := by
  obtain ⟨result, name, boxes, phase⟩ := c
  obtain ⟨b₀, b₁, b₂, rfl⟩ := List.length_eq_three.mp hlen
  rfl

/-- What is in a list to which `a` has been added was there before, or is `a`. -/
theorem getElem?_concat_cases {α : Type*} {l : List α} {a b : α} {i : ℕ}
    (h : (l ++ [a])[i]? = some b) : l[i]? = some b ∨ (i = l.length ∧ b = a) := by
  rcases Nat.lt_or_ge i l.length with hlt | hge
  · exact Or.inl ((List.getElem?_append_left hlt).symm.trans h)
  · rw [List.getElem?_append_right hge, List.getElem?_singleton] at h
    split at h
    · exact Or.inr ⟨by omega, (Option.some.inj h).symm⟩
    · cases h

theorem getElem?_setBox {b i : ℕ} {f f' g : Falling} (hf : s.boxes[b]? = some f)
    (hg : (s.setBox b f').boxes[i]? = some g) :
    (i = b ∧ g = f') ∨ (i ≠ b ∧ s.boxes[i]? = some g) := by
  have hlt := (List.getElem?_eq_some_iff.mp hf).1
  change (s.boxes.set b f')[i]? = some g at hg
  by_cases hi : i = b
  · subst hi
    rw [List.getElem?_set_self hlt] at hg
    exact Or.inl ⟨rfl, (Option.some.inj hg).symm⟩
  · rw [List.getElem?_set_ne (Ne.symm hi)] at hg
    exact Or.inr ⟨hi, hg⟩

/-- What a file is does not change when its boxes do. -/
theorem file_setBox {b : ℕ} {f f' : Falling} (hf : s.boxes[b]? = some f)
    (hdata : f'.data = f.data) (held : Held) : (s.setBox b f').file held = s.file held := by
  have hpiece : ∀ i : ℕ, (s.setBox b f').boxes[i]?.elim [] Falling.data
      = s.boxes[i]?.elim [] Falling.data := by
    intro i
    show ((s.boxes.set b f')[i]?).elim [] Falling.data = _
    by_cases hi : i = b
    · subst hi
      rw [List.getElem?_set_self (List.getElem?_eq_some_iff.mp hf).1, hf]
      exact hdata
    · rw [List.getElem?_set_ne (Ne.symm hi)]
  rw [State.file, State.file]
  congr 1
  funext p
  exact hpiece _

theorem file_append {held : Held} (hlt : ∀ p, held.box p < s.boxes.length) (f : Falling) :
    ({ s with boxes := s.boxes ++ [f] } : State FileId).file held = s.file held := by
  rw [State.file, State.file]
  congr 1
  funext p
  rw [List.getElem?_append_left (hlt p)]

variable [DecidableEq FileId]

/-- `files` is what the table holds, and the boxes are alive that should be. -/
structure Inv (P : Primitives) (files : Dict FileId File) (s : State FileId) : Prop where
  lives : ∀ f ∈ s.boxes, f.Lives P
  apart : s.Apart
  lt : ∀ {fileId c b}, s.Owns fileId c b → b < s.boxes.length
  owned : ∀ {b}, b < s.boxes.length → ∃ fileId c, s.Owns fileId c b
  length : ∀ {fileId c}, s.calls fileId = some c → c.phase ≠ .making → c.phase ≠ .raised →
    c.boxes.length = 3
  entry : ∀ {fileId held}, s.held.get? fileId = some held ↔
    ∃ c size, s.calls fileId = some c ∧ c.phase = .held size ∧ held = c.entry size
  removed : ∀ {fileId c b f}, s.Owns fileId c b → s.boxes[b]? = some f →
    (f.box.removed = true ↔ c.phase = .forgotten ∧ b ∉ s.forgetting)
  forgetting : ∀ {b}, b ∈ s.forgetting → ∃ fileId c, s.Owns fileId c b ∧ c.phase = .forgotten
  nodup : s.forgetting.Nodup
  files : Alike (fun _ file held => file = s.file held) files s.held

variable {files : Dict FileId File}

theorem inv_start (P : Primitives) (watchdog : Option ProcessWatchdog) (disk : Disk) :
    Inv P .empty (start watchdog disk : State FileId) where
  lives f hf := nomatch hf
  apart h _ _ _ := nomatch h
  lt h := nomatch h.1
  owned h := nomatch h
  length h _ _ := nomatch h
  entry := by
    intro fileId held
    constructor
    · exact fun h => nomatch h
    · rintro ⟨c, size, hc, -⟩
      exact nomatch hc
  removed h _ := nomatch h.1
  forgetting h := nomatch h
  nodup := List.nodup_nil
  files := .empty

/-- A step of one box. -/
theorem Inv.setBox {b : ℕ} {f f' : Falling} (h : Inv P files s) (hf : s.boxes[b]? = some f)
    (hdata : f'.data = f.data) (hremoved : f'.box.removed = f.box.removed)
    (hlives : f'.Lives P) : Inv P files (s.setBox b f') := by
  have hlen : (s.setBox b f').boxes.length = s.boxes.length := List.length_set
  refine { h with lives := ?_, lt := ?_, owned := ?_, removed := ?_, files := ?_ }
  · intro g hg
    obtain ⟨i, hi⟩ := List.getElem?_of_mem hg
    obtain ⟨-, rfl⟩ | ⟨-, hi⟩ := getElem?_setBox hf hi
    · exact hlives
    · exact h.lives g (List.mem_of_getElem? hi)
  · intro fileId c i howns
    rw [hlen]
    exact h.lt howns
  · intro i hi
    rw [hlen] at hi
    exact h.owned hi
  · intro fileId c i g howns hg
    obtain ⟨rfl, rfl⟩ | ⟨-, hg⟩ := getElem?_setBox hf hg
    · rw [hremoved]
      exact h.removed howns hf
    · exact h.removed howns hg
  · refine h.files.mono fun {_ _ held} hfile => ?_
    rw [file_setBox hf hdata]
    exact hfile

theorem Inv.watchdog (h : Inv P files s) (w : Option ProcessWatchdog) :
    Inv P files { s with watchdog := w } := { h with }

theorem Inv.disk (h : Inv P files s) (disk : Disk) : Inv P files { s with disk := disk } :=
  { h with }

/-- A box is collapsed that `forget` has taken out. -/
theorem Inv.collapse {b : ℕ} {f : Falling} (h : Inv P files s) (hb : b ∈ s.forgetting)
    (hf : s.boxes[b]? = some f) :
    Inv P files ({ s with forgetting := s.forgetting.erase b }.setBox b
      { f with box := f.box.collapse }) := by
  obtain ⟨fileId₀, c₀, howns₀, hphase₀⟩ := h.forgetting hb
  have halive : f.box.removed = false := by
    rw [← Bool.not_eq_true, h.removed howns₀ hf]
    exact fun hgone => hgone.2 hb
  have hlen : (s.setBox b { f with box := f.box.collapse }).boxes.length = s.boxes.length :=
    List.length_set
  refine
    { lives := ?_
      apart := h.apart
      lt := fun howns => lt_of_lt_of_eq (h.lt howns) hlen.symm
      owned := fun hi => h.owned (lt_of_lt_of_eq hi hlen)
      length := h.length
      entry := h.entry
      removed := ?_
      forgetting := fun hi => h.forgetting (List.mem_of_mem_erase hi)
      nodup := h.nodup.erase b
      files := ?_ }
  · intro g hg
    obtain ⟨i, hi⟩ := List.getElem?_of_mem hg
    obtain ⟨-, rfl⟩ | ⟨-, hi⟩ := getElem?_setBox hf hi
    · exact (h.lives f (List.mem_of_getElem? hf)).collapse halive
    · exact h.lives g (List.mem_of_getElem? hi)
  · intro fileId c i g howns hg
    show g.box.removed = true ↔ c.phase = .forgotten ∧ i ∉ s.forgetting.erase b
    rw [h.nodup.mem_erase_iff]
    obtain ⟨rfl, rfl⟩ | ⟨hi, hg⟩ := getElem?_setBox hf hg
    · refine iff_of_true rfl ⟨?_, fun hne => hne.1 rfl⟩
      -- the box has one owner
      obtain ⟨k, hk⟩ := List.getElem?_of_mem howns.2
      obtain ⟨k₀, hk₀⟩ := List.getElem?_of_mem howns₀.2
      obtain ⟨rfl, -⟩ := h.apart howns.1 howns₀.1 hk hk₀
      rw [Option.some.inj (howns.1.symm.trans howns₀.1)]
      exact hphase₀
    · rw [h.removed howns hg, and_iff_right hi]
  · have hdata : ({ f with box := f.box.collapse } : Falling).data = f.data := rfl
    have hsame : ∀ held, ({ s with forgetting := s.forgetting.erase b }.setBox b
        { f with box := f.box.collapse }).file held = s.file held := fun held =>
      file_setBox (s := { s with forgetting := s.forgetting.erase b }) hf hdata held
    exact h.files.mono fun {_ _ held} hfile => hfile.trans (hsame held).symm

/-! ### Steps of the calls -/

section Calls

variable {fileId : FileId} {c c' : Call}

theorem calls_setCall {other : FileId} {d : Call}
    (h : (s.setCall fileId c').calls other = some d) :
    (other = fileId ∧ d = c') ∨ (other ≠ fileId ∧ s.calls other = some d) := by
  change Function.update s.calls fileId (some c') other = some d at h
  rw [Function.update_apply] at h
  split at h
  · rename_i hother
    exact Or.inl ⟨hother, (Option.some.inj h).symm⟩
  · rename_i hother
    exact Or.inr ⟨hother, h⟩

theorem calls_setCall_self : (s.setCall fileId c').calls fileId = some c' :=
  Function.update_self ..

theorem calls_setCall_of_ne {other : FileId} (h : other ≠ fileId) :
    (s.setCall fileId c').calls other = s.calls other := Function.update_of_ne h ..

/-- A call with the same boxes owns the same. -/
theorem calls_same (hc : s.calls fileId = some c) (hboxes : c'.boxes = c.boxes) {other : FileId}
    {d : Call} (h : (s.setCall fileId c').calls other = some d) :
    ∃ d₀, s.calls other = some d₀ ∧ d₀.boxes = d.boxes := by
  obtain ⟨rfl, rfl⟩ | ⟨-, hd⟩ := calls_setCall h
  · exact ⟨c, hc, hboxes.symm⟩
  · exact ⟨d, hd, rfl⟩

theorem Inv.apart_setCall (h : Inv P files s) (c' : Call) (hc : s.calls fileId = some c)
    (hboxes : c'.boxes = c.boxes) : (s.setCall fileId c').Apart := by
  intro i j d d' k k' b hd hd' hk hk'
  obtain ⟨d₀, hd₀, heq⟩ := calls_same hc hboxes hd
  obtain ⟨d₀', hd₀', heq'⟩ := calls_same hc hboxes hd'
  exact h.apart hd₀ hd₀' (heq ▸ hk) (heq' ▸ hk')

theorem Inv.lt_setCall (h : Inv P files s) (c' : Call) (hc : s.calls fileId = some c)
    (hboxes : c'.boxes = c.boxes) {other : FileId} {d : Call} {b : ℕ}
    (howns : (s.setCall fileId c').Owns other d b) : b < s.boxes.length := by
  obtain ⟨d₀, hd₀, heq⟩ := calls_same hc hboxes howns.1
  exact h.lt ⟨hd₀, heq ▸ howns.2⟩

theorem Inv.owned_setCall (h : Inv P files s) (c' : Call) (hc : s.calls fileId = some c)
    (hboxes : c'.boxes = c.boxes) {b : ℕ} (hb : b < s.boxes.length) :
    ∃ other d, (s.setCall fileId c').Owns other d b := by
  obtain ⟨other, d, hd, hmem⟩ := h.owned hb
  by_cases hother : other = fileId
  · subst hother
    obtain rfl := Option.some.inj (hc.symm.trans hd)
    exact ⟨other, c', calls_setCall_self, hboxes ▸ hmem⟩
  · exact ⟨other, d, (calls_setCall_of_ne hother).trans hd, hmem⟩

/-- The table is that of the calls, as long as neither the old nor the new phase is about it. -/
theorem Inv.entry_setCall (h : Inv P files s) (c' : Call) (hc : s.calls fileId = some c)
    (hnot : ∀ size, c.phase ≠ .held size) (hnot' : ∀ size, c'.phase ≠ .held size)
    {other : FileId} {held : Held} : s.held.get? other = some held ↔
      ∃ d size, (s.setCall fileId c').calls other = some d ∧ d.phase = .held size ∧
        held = d.entry size := by
  refine h.entry.trans ⟨?_, ?_⟩
  · rintro ⟨d, size, hd, hp, rfl⟩
    have hother : other ≠ fileId := by
      rintro rfl
      obtain rfl := Option.some.inj (hc.symm.trans hd)
      exact hnot size hp
    exact ⟨d, size, (calls_setCall_of_ne hother).trans hd, hp, rfl⟩
  · rintro ⟨d, size, hd, hp, rfl⟩
    obtain ⟨-, rfl⟩ | ⟨-, hd⟩ := calls_setCall hd
    · exact absurd hp (hnot' size)
    · exact ⟨d, size, hd, hp, rfl⟩

theorem Inv.forgetting_setCall (h : Inv P files s) (c' : Call) (hc : s.calls fileId = some c)
    (hnot : c.phase ≠ .forgotten) {b : ℕ} (hb : b ∈ s.forgetting) :
    ∃ other d, (s.setCall fileId c').Owns other d b ∧ d.phase = .forgotten := by
  obtain ⟨other, d, ⟨hd, hmem⟩, hp⟩ := h.forgetting hb
  have hother : other ≠ fileId := by
    rintro rfl
    obtain rfl := Option.some.inj (hc.symm.trans hd)
    exact hnot hp
  exact ⟨other, d, ⟨(calls_setCall_of_ne hother).trans hd, hmem⟩, hp⟩

/-- A call that has not come to the table goes on, or raises. -/
theorem Inv.setCall (h : Inv P files s) (hc : s.calls fileId = some c)
    (hboxes : c'.boxes = c.boxes) (hphase : c.phase = .making ∨ c.phase = .registered)
    (hphase' : c'.phase = .registered ∧ c.boxes.length = 3 ∨ c'.phase = .raised) :
    Inv P files (s.setCall fileId c') := by
  have hheld : ∀ size, c.phase ≠ .held size := by
    rintro size heq
    rcases hphase with hp | hp <;> exact nomatch heq.symm.trans hp
  have hheld' : ∀ size, c'.phase ≠ .held size := by
    rintro size heq
    rcases hphase' with ⟨hp, -⟩ | hp <;> exact nomatch heq.symm.trans hp
  have hgone : c.phase ≠ .forgotten := by
    rintro heq
    rcases hphase with hp | hp <;> exact nomatch heq.symm.trans hp
  have hgone' : c'.phase ≠ .forgotten := by
    rintro heq
    rcases hphase' with ⟨hp, -⟩ | hp <;> exact nomatch heq.symm.trans hp
  refine { h with
    apart := h.apart_setCall c' hc hboxes
    lt := h.lt_setCall c' hc hboxes
    owned := h.owned_setCall c' hc hboxes
    length := ?_
    entry := h.entry_setCall c' hc hheld hheld'
    removed := ?_
    forgetting := h.forgetting_setCall c' hc hgone }
  · intro other d hd hmaking hraised
    obtain ⟨rfl, rfl⟩ | ⟨-, hd⟩ := calls_setCall hd
    · rw [hboxes]
      exact (hphase'.resolve_right hraised).2
    · exact h.length hd hmaking hraised
  · rintro other d b f ⟨hd, hb⟩ hf
    obtain ⟨rfl, rfl⟩ | ⟨-, hd⟩ := calls_setCall hd
    · refine (h.removed ⟨hc, hboxes ▸ hb⟩ hf).trans ?_
      exact iff_of_false (fun hr => hgone hr.1) fun hr => hgone' hr.1
    · exact h.removed ⟨hd, hb⟩ hf

/-- A call begins. -/
theorem Inv.call (h : Inv P files s) (hnew : s.calls fileId = none) (result : Splitter.SplitResult)
    (name : PyStr) : Inv P files (s.setCall fileId ⟨result, name, [], .making⟩) := by
  have hne : ∀ {other d}, s.calls other = some d → other ≠ fileId := by
    rintro other d hd rfl
    exact nomatch hnew.symm.trans hd
  refine { h with
    apart := ?_, lt := ?_, owned := ?_, length := ?_, entry := ?_, removed := ?_
    forgetting := ?_ }
  · intro i j d d' k k' b hd hd' hk hk'
    obtain ⟨-, rfl⟩ | ⟨-, hd⟩ := calls_setCall hd
    · exact nomatch hk
    obtain ⟨-, rfl⟩ | ⟨-, hd'⟩ := calls_setCall hd'
    · exact nomatch hk'
    exact h.apart hd hd' hk hk'
  · rintro other d b ⟨hd, hb⟩
    obtain ⟨-, rfl⟩ | ⟨-, hd⟩ := calls_setCall hd
    · exact nomatch hb
    · exact h.lt ⟨hd, hb⟩
  · intro b hb
    obtain ⟨other, d, hd, hmem⟩ := h.owned hb
    exact ⟨other, d, (calls_setCall_of_ne (hne hd)).trans hd, hmem⟩
  · intro other d hd hmaking hraised
    obtain ⟨-, rfl⟩ | ⟨-, hd⟩ := calls_setCall hd
    · exact absurd rfl hmaking
    · exact h.length hd hmaking hraised
  · intro other held
    refine h.entry.trans ?_
    constructor
    · rintro ⟨d, size, hd, hrest⟩
      exact ⟨d, size, (calls_setCall_of_ne (hne hd)).trans hd, hrest⟩
    · rintro ⟨d, size, hd, hp, rfl⟩
      obtain ⟨-, rfl⟩ | ⟨-, hd⟩ := calls_setCall hd
      · exact nomatch hp
      · exact ⟨d, size, hd, hp, rfl⟩
  · rintro other d b f ⟨hd, hb⟩ hf
    obtain ⟨-, rfl⟩ | ⟨-, hd⟩ := calls_setCall hd
    · exact nomatch hb
    · exact h.removed ⟨hd, hb⟩ hf
  · intro b hb
    obtain ⟨other, d, ⟨hd, hmem⟩, hp⟩ := h.forgetting hb
    exact ⟨other, d, ⟨(calls_setCall_of_ne (hne hd)).trans hd, hmem⟩, hp⟩

/-- The boxes in the table have been made. -/
theorem Inv.entry_lt (h : Inv P files s) {held : Held} (hheld : s.held.get? fileId = some held)
    (p : Piece) : held.box p < s.boxes.length := by
  obtain ⟨c, size, hc, hp, rfl⟩ := h.entry.mp hheld
  have hlen := h.length hc (by rw [hp]; exact nofun) (by rw [hp]; exact nofun)
  exact h.lt ⟨hc, List.mem_of_getElem? (entry_box hlen size p)⟩

/-- A call makes a box. -/
theorem Inv.make (h : Inv P files s) (hc : s.calls fileId = some c) (hphase : c.phase = .making)
    {f : Falling} (hlives : f.Lives P) (hremoved : f.box.removed = false) :
    Inv P files ({ s with boxes := s.boxes ++ [f] }.setCall fileId
      { c with boxes := c.boxes ++ [s.boxes.length] }) := by
  set c' : Call := { c with boxes := c.boxes ++ [s.boxes.length] } with hc'
  set t : State FileId := { s with boxes := s.boxes ++ [f] } with ht
  have hlen : t.boxes.length = s.boxes.length + 1 := List.length_append
  have hheld : ∀ size, c.phase ≠ .held size := fun size heq => nomatch heq.symm.trans hphase
  -- a box of a call is an old one, or the one that has just been made
  have howner : ∀ {other d k b}, (t.setCall fileId c').calls other = some d → d.boxes[k]? = some b →
      (b = s.boxes.length ∧ other = fileId ∧ k = c.boxes.length ∧ d = c') ∨
        ∃ d₀, s.calls other = some d₀ ∧ d₀.boxes[k]? = some b ∧ d₀.phase = d.phase := by
    intro other d k b hd hk
    obtain ⟨rfl, rfl⟩ | ⟨-, hd⟩ := calls_setCall hd
    · rw [hc'] at hk
      obtain hk | ⟨rfl, rfl⟩ := getElem?_concat_cases hk
      · exact Or.inr ⟨c, hc, hk, rfl⟩
      · exact Or.inl ⟨rfl, rfl, rfl, rfl⟩
    · exact Or.inr ⟨d, hd, hk, rfl⟩
  have hlt : ∀ {other d k b}, s.calls other = some d → d.boxes[k]? = some b →
      b < s.boxes.length := fun hd hk => h.lt ⟨hd, List.mem_of_getElem? hk⟩
  refine
    { lives := ?_
      apart := ?_
      lt := ?_
      owned := ?_
      length := ?_
      entry := h.entry_setCall c' hc hheld hheld
      removed := ?_
      forgetting := h.forgetting_setCall c' hc fun heq => nomatch heq.symm.trans hphase
      nodup := h.nodup
      files := ⟨h.files.keys, fun ha hb => (h.files.related ha hb).trans
        (file_append (h.entry_lt hb) f).symm⟩ }
  · exact List.forall_mem_append.mpr ⟨h.lives, List.forall_mem_singleton.mpr hlives⟩
  · intro i j d d' k k' b hd hd' hk hk'
    obtain ⟨rfl, rfl, rfl, -⟩ | ⟨d₀, hd₀, hk₀, -⟩ := howner hd hk
    · obtain ⟨-, rfl, rfl, -⟩ | ⟨d₀', hd₀', hk₀', -⟩ := howner hd' hk'
      · exact ⟨rfl, rfl⟩
      · exact absurd (hlt hd₀' hk₀') (lt_irrefl _)
    · obtain ⟨rfl, -, -, -⟩ | ⟨d₀', hd₀', hk₀', -⟩ := howner hd' hk'
      · exact absurd (hlt hd₀ hk₀) (lt_irrefl _)
      · exact h.apart hd₀ hd₀' hk₀ hk₀'
  · rintro other d b ⟨hd, hb⟩
    obtain ⟨k, hk⟩ := List.getElem?_of_mem hb
    show b < t.boxes.length
    rw [hlen]
    obtain ⟨rfl, -⟩ | ⟨d₀, hd₀, hk₀, -⟩ := howner hd hk
    · exact Nat.lt_succ_self _
    · exact Nat.lt_succ_of_lt (hlt hd₀ hk₀)
  · intro b hb
    change b < t.boxes.length at hb
    rw [hlen] at hb
    rcases Nat.lt_or_eq_of_le (Nat.le_of_lt_succ hb) with hb | rfl
    · obtain ⟨other, d, hd, hmem⟩ := h.owned hb
      by_cases hother : other = fileId
      · subst hother
        obtain rfl := Option.some.inj (hc.symm.trans hd)
        exact ⟨other, c', calls_setCall_self, List.mem_append_left _ hmem⟩
      · exact ⟨other, d, (calls_setCall_of_ne hother).trans hd, hmem⟩
    · exact ⟨fileId, c', calls_setCall_self, List.mem_append_right _ List.mem_cons_self⟩
  · intro other d hd hmaking hraised
    obtain ⟨rfl, rfl⟩ | ⟨-, hd⟩ := calls_setCall hd
    · exact absurd hphase hmaking
    · exact h.length hd hmaking hraised
  · rintro other d b g ⟨hd, hb⟩ hg
    obtain ⟨k, hk⟩ := List.getElem?_of_mem hb
    change (s.boxes ++ [f])[b]? = some g at hg
    obtain ⟨rfl, -, -, rfl⟩ | ⟨d₀, hd₀, hk₀, hp⟩ := howner hd hk
    · rw [List.getElem?_concat_length] at hg
      obtain rfl := Option.some.inj hg
      refine iff_of_false (fun hr => nomatch hr.symm.trans hremoved) fun hr => ?_
      exact nomatch hr.1.symm.trans hphase
    · rw [List.getElem?_append_left (hlt hd₀ hk₀)] at hg
      rw [← hp]
      exact h.removed ⟨hd₀, List.mem_of_getElem? hk₀⟩ hg

/-- A call enters its file into the table. -/
theorem Inv.record (h : Inv P files s) (hc : s.calls fileId = some c)
    (hphase : c.phase = .registered) (size : ℕ) :
    Inv P (files.set fileId (s.file (c.entry size)))
      ({ s with held := s.held.set fileId (c.entry size) }.setCall fileId
        { c with phase := .held size }) := by
  set c' : Call := { c with phase := .held size }
  have hlen : c.boxes.length = 3 :=
    h.length hc (by rw [hphase]; exact nofun) (by rw [hphase]; exact nofun)
  refine
    { lives := h.lives
      apart := h.apart_setCall c' hc rfl
      lt := h.lt_setCall c' hc rfl
      owned := h.owned_setCall c' hc rfl
      length := ?_
      entry := ?_
      removed := ?_
      forgetting := h.forgetting_setCall c' hc fun heq => nomatch heq.symm.trans hphase
      nodup := h.nodup
      files := h.files.set rfl }
  · intro other d hd hmaking hraised
    obtain ⟨-, rfl⟩ | ⟨-, hd⟩ := calls_setCall hd
    · exact hlen
    · exact h.length hd hmaking hraised
  · intro other held
    show (s.held.set fileId (c.entry size)).get? other = some held ↔ _
    rw [Dict.get?_set]
    by_cases hother : other = fileId
    · subst hother
      rw [if_pos rfl]
      constructor
      · intro heq
        exact ⟨_, size, calls_setCall_self, rfl, (Option.some.inj heq).symm⟩
      · rintro ⟨d, size', hd, hp, rfl⟩
        obtain rfl := Option.some.inj (calls_setCall_self.symm.trans hd)
        rw [Phase.held.inj hp]
        rfl
    · rw [if_neg hother]
      refine h.entry.trans ?_
      have hsame : ({ s with held := s.held.set fileId (c.entry size) }.setCall fileId
          c').calls other = s.calls other := calls_setCall_of_ne hother
      rw [hsame]
  · rintro other d b f ⟨hd, hb⟩ hf
    obtain ⟨rfl, rfl⟩ | ⟨-, hd⟩ := calls_setCall hd
    · refine (h.removed ⟨hc, hb⟩ hf).trans ?_
      exact iff_of_false (fun hr => nomatch hr.1.symm.trans hphase) fun hr => nomatch hr.1
    · exact h.removed ⟨hd, hb⟩ hf

/-- `forget` takes a file out of the table. -/
theorem Inv.forget (h : Inv P files s) {held : Held} (hheld : s.held.get? fileId = some held)
    (hc : s.calls fileId = some c) :
    Inv P (files.erase fileId)
      ({ s with
          held := s.held.erase fileId
          forgetting := s.forgetting ++ held.boxes }.setCall fileId
        { c with phase := .forgotten }) := by
  set c' : Call := { c with phase := .forgotten }
  obtain ⟨d, size, hd, hphase, rfl⟩ := h.entry.mp hheld
  obtain rfl := Option.some.inj (hc.symm.trans hd)
  have hlen : c.boxes.length = 3 :=
    h.length hc (by rw [hphase]; exact nofun) (by rw [hphase]; exact nofun)
  rw [boxes_entry hlen]
  have hgone : c.phase ≠ .forgotten := fun heq => nomatch heq.symm.trans hphase
  -- the boxes of the file are those of no other call
  have hmine : ∀ {other d b}, s.Owns other d b → b ∈ c.boxes → other = fileId := by
    intro other d b howns hb
    obtain ⟨k, hk⟩ := List.getElem?_of_mem howns.2
    obtain ⟨k', hk'⟩ := List.getElem?_of_mem hb
    exact (h.apart howns.1 hc hk hk').1
  have hdisjoint : ∀ b ∈ s.forgetting, b ∉ c.boxes := by
    intro b hb hmem
    obtain ⟨other, d, howns, hp⟩ := h.forgetting hb
    obtain rfl := hmine howns hmem
    rw [Option.some.inj (howns.1.symm.trans hc)] at hp
    exact hgone hp
  have hnodup : c.boxes.Nodup := by
    rw [List.nodup_iff_getElem?_ne_getElem?]
    intro i j hij hj heq
    have hi := List.getElem?_eq_getElem hj
    exact Nat.ne_of_lt hij (h.apart hc hc (heq.trans hi) hi).2
  refine
    { lives := h.lives
      apart := h.apart_setCall c' hc rfl
      lt := h.lt_setCall c' hc rfl
      owned := h.owned_setCall c' hc rfl
      length := ?_
      entry := ?_
      removed := ?_
      forgetting := ?_
      nodup := List.nodup_append.mpr ⟨h.nodup, hnodup, fun b hb b' hb' heq =>
        hdisjoint b hb (heq ▸ hb')⟩
      files := h.files.erase fileId }
  · intro other d hd hmaking hraised
    obtain ⟨-, rfl⟩ | ⟨-, hd⟩ := calls_setCall hd
    · exact hlen
    · exact h.length hd hmaking hraised
  · intro other held
    show (s.held.erase fileId).get? other = some held ↔ _
    rw [Dict.get?_erase]
    by_cases hother : other = fileId
    · subst hother
      rw [if_pos rfl]
      refine iff_of_false nofun ?_
      rintro ⟨d, size', hd, hp, -⟩
      obtain rfl := Option.some.inj (calls_setCall_self.symm.trans hd)
      exact nomatch hp
    · rw [if_neg hother]
      refine h.entry.trans ?_
      have hsame : ({ s with
          held := s.held.erase fileId
          forgetting := s.forgetting ++ c.boxes }.setCall fileId c').calls other
            = s.calls other :=
        calls_setCall_of_ne hother
      rw [hsame]
  · rintro other d b f ⟨hd, hb⟩ hf
    show f.box.removed = true ↔ d.phase = .forgotten ∧ b ∉ s.forgetting ++ c.boxes
    rw [List.mem_append, not_or]
    obtain ⟨rfl, rfl⟩ | ⟨hother, hd⟩ := calls_setCall hd
    · refine (h.removed ⟨hc, hb⟩ hf).trans ?_
      exact iff_of_false (fun hr => hgone hr.1) fun hr => hr.2.2 hb
    · rw [and_iff_left fun hmem => hother (hmine ⟨hd, hb⟩ hmem)]
      exact h.removed ⟨hd, hb⟩ hf
  · intro b hb
    rcases List.mem_append.mp hb with hb | hb
    · exact h.forgetting_setCall c' hc hgone hb
    · exact ⟨fileId, _, ⟨calls_setCall_self, hb⟩, rfl⟩

end Calls

/-! ### Runs -/

variable {L : Splitter.Libraries} {trustGroup : Bool} {watchdog : Option ProcessWatchdog}
  {disk : Disk}

theorem Inv.step (h : Inv P files s) {event : Event FileId} {t : State FileId}
    (hstep : Step P L trustGroup s event t) : Inv P (event.effect.apply files) t := by
  cases hstep with
  | call hnew _ => exact h.call hnew _ _
  | make hc hphase _ _ hbox =>
    obtain ⟨hremoved, hlives⟩ := lives_construct hbox
    exact h.make hc hphase hlives hremoved
  | @register fileId c w hc hphase hlen _ =>
    exact (h.watchdog w).setCall hc rfl (Or.inl hphase) (Or.inl ⟨rfl, hlen⟩)
  | record hc hphase _ => exact h.record hc hphase _
  | raises hc hphase => exact h.setCall hc rfl hphase (Or.inr rfl)
  | forget hheld hc => exact h.forget hheld hc
  | collapse hb hf => exact h.collapse hb hf
  | hop hf hremoved hstopped hcall =>
    obtain ⟨hremoved', hlives⟩ :=
      (h.lives _ (List.mem_of_getElem? hf)).hop hremoved hstopped hcall _
    exact (h.watchdog _).setBox hf rfl (hremoved'.trans hremoved.symm) hlives
  | bounce hf => exact h.setBox hf rfl rfl ((h.lives _ (List.mem_of_getElem? hf)).bounce _)
  | pause hf => exact h.setBox hf rfl rfl ((h.lives _ (List.mem_of_getElem? hf)).pause _)
  | write => exact h.disk _

/-- **The storage is a store of files.** -/
theorem refines (P : Primitives) (L : Splitter.Libraries) (trustGroup : Bool)
    (watchdog : Option ProcessWatchdog) (disk : Disk) :
    Refines (Step P L trustGroup) (start watchdog disk : State FileId) Event.effect (Inv P) where
  start := inv_start P watchdog disk
  step h hstep := h.step hstep

end SecureFiles
