/-
The region table, one store at a time.

`ProcessWatchdog` treats a call as one step.  Here a call is as many steps as it makes
accesses: it waits for the lock of the count, reads and sets the count under it, and
stores addresses and lengths one by one, `update_slot` without any lock.  Any number of
threads register files and rotate boxes, each box through its own registrar, which it
calls under the lock of the box.

* `Inv`: the ranges handed out end at the count and do not meet, and a box writes in the
  one that its registrar remembers;
* `region_table_integrity`: what follows for every interleaving;
* `add_alone`, `newGuard_alone`: a call that nobody interrupts is the one of
  `ProcessWatchdog`.
-/
import Mathlib
import VStorage.ProcessWatchdog

namespace RegionTable

open ProcessWatchdog (maxRegions)
open SecureVirtualStorage (Slot)

/-! ### The system -/

/-- Who a range was handed out to: a call of `add_regions`, or the registrar of a box. -/
inductive Owner
  | call
  | box (b : ℕ)
  deriving DecidableEq

/-- A range of indices, and who it was handed out to. -/
structure Grant where
  owner : Owner
  index : ℕ
  size : ℕ

/-- Two ranges that do not meet. -/
def Grant.Apart (g h : Grant) : Prop :=
  g.index + g.size ≤ h.index ∨ h.index + h.size ≤ g.index

/-- The entry, an address or a length, belongs to the range. -/
def Grant.Has (g : Grant) (x : ℕ) : Prop := 2 * g.index ≤ x ∧ x < 2 * (g.index + g.size)

/-- The values that a list of regions stores, in the order of the stores. -/
def flat (regions : List Region) : List ℕ := regions.flatMap fun r => [r.1, r.2]

/-- Where a thread is. -/
inductive Phase
  | idle
  -- `add_regions`: waiting for the lock; at the check; storing, `k` values done
  | adding (regions : List Region)
  | addLocked (regions : List Region)
  | storing (index : ℕ) (regions : List Region) (k : ℕ)
  -- `_on_new_guard` of box `b`: in `reserve_slot`, before the lock and after it; its
  -- result; at the second check; in `update_slot`, `k` values done
  | reserving (b : ℕ) (regions : List Region)
  | reserveLocked (b : ℕ) (regions : List Region)
  | returned (b : ℕ) (regions : List Region) (index : ℤ)
  | checking (b : ℕ) (regions : List Region)
  | updating (b : ℕ) (startIndex : ℤ) (regions : List Region) (k : ℕ)

/-- The box whose registrar the thread is in. -/
def Phase.box? : Phase → Option ℕ
  | .reserving b _ | .reserveLocked b _ | .returned b _ _ | .checking b _ | .updating b _ _ _ =>
    some b
  | .idle | .adding _ | .addLocked _ | .storing _ _ _ => none

/-- The thread is between taking and giving back the lock of the count. -/
def Phase.Locked : Phase → Prop
  | .addLocked _ | .storing _ _ _ | .reserveLocked _ _ => True
  | .idle | .adding _ | .reserving _ _ | .returned _ _ _ | .checking _ _ | .updating _ _ _ _ =>
    False

/-- The table, the lock of the count, the threads, and what every registrar remembers.
`grants` is the history of the ranges handed out. -/
structure State where
  entries : ℕ → ℕ
  regionCount : ℕ
  lock : Option ℕ
  phase : ℕ → Phase
  slots : ℕ → Option Slot
  grants : List Grant

def start : State where
  entries := fun _ => 0
  regionCount := 0
  lock := none
  phase := fun _ => .idle
  slots := fun _ => none
  grants := []

def State.go (s : State) (t : ℕ) (phase : Phase) : State :=
  { s with phase := Function.update s.phase t phase }

@[simp] theorem State.go_self (s : State) (t : ℕ) (phase : Phase) :
    (s.go t phase).phase t = phase := Function.update_self ..

theorem State.go_of_ne (s : State) {t u : ℕ} (h : u ≠ t) (phase : Phase) :
    (s.go t phase).phase u = s.phase u := Function.update_of_ne h ..

/-- What a step is. -/
inductive Act
  | add (regions : List Region)
  | newGuard (b : ℕ) (regions : List Region)
  | acquire
  | raises
  | passes
  | store
  | finish
  | refused
  | reserved
  | remember
  | skip
  | begin
  | update (b : ℕ)
  | done

/-- A step of a thread. -/
structure Event where
  thread : ℕ
  act : Act

inductive Step : State → Event → State → Prop
  -- `add_regions`
  | add {s : State} {t : ℕ} {regions : List Region} : s.phase t = .idle →
      Step s ⟨t, .add regions⟩ (s.go t (.adding regions))
  | addAcquire {s : State} {t : ℕ} {regions : List Region} : s.phase t = .adding regions →
      s.lock = none → Step s ⟨t, .acquire⟩ ({ s with lock := some t }.go t (.addLocked regions))
  | raises {s : State} {t : ℕ} {regions : List Region} : s.phase t = .addLocked regions →
      s.regionCount + regions.length > maxRegions →
      Step s ⟨t, .raises⟩ ({ s with lock := none }.go t .idle)
  | passes {s : State} {t : ℕ} {regions : List Region} : s.phase t = .addLocked regions →
      ¬ s.regionCount + regions.length > maxRegions →
      Step s ⟨t, .passes⟩
        ({ s with grants := s.grants ++ [Grant.mk .call s.regionCount regions.length] }.go t
          (.storing s.regionCount regions 0))
  | store {s : State} {t i k v : ℕ} {regions : List Region} : s.phase t = .storing i regions k →
      (flat regions)[k]? = some v →
      Step s ⟨t, .store⟩
        ({ s with entries := Function.update s.entries (2 * i + k) v }.go t
          (.storing i regions (k + 1)))
  | finish {s : State} {t i k : ℕ} {regions : List Region} : s.phase t = .storing i regions k →
      k = (flat regions).length →
      Step s ⟨t, .finish⟩
        ({ s with regionCount := i + regions.length, lock := none }.go t .idle)
  -- `_on_new_guard`, called under the lock of the box
  | newGuard {s : State} {t b : ℕ} {regions : List Region} : s.phase t = .idle →
      (∀ u, (s.phase u).box? ≠ some b) →
      Step s ⟨t, .newGuard b regions⟩
        (s.go t (if s.slots b = none then .reserving b regions else .checking b regions))
  | reserveAcquire {s : State} {t b : ℕ} {regions : List Region} :
      s.phase t = .reserving b regions → s.lock = none →
      Step s ⟨t, .acquire⟩ ({ s with lock := some t }.go t (.reserveLocked b regions))
  | refused {s : State} {t b : ℕ} {regions : List Region} : s.phase t = .reserveLocked b regions →
      s.regionCount + regions.length > maxRegions →
      Step s ⟨t, .refused⟩ ({ s with lock := none }.go t (.returned b regions (-1)))
  | reserved {s : State} {t b : ℕ} {regions : List Region} :
      s.phase t = .reserveLocked b regions → ¬ s.regionCount + regions.length > maxRegions →
      Step s ⟨t, .reserved⟩
        ({ s with
          regionCount := s.regionCount + regions.length
          lock := none
          grants := s.grants ++ [Grant.mk (.box b) s.regionCount regions.length] }.go t
            (.returned b regions s.regionCount))
  | remember {s : State} {t b : ℕ} {regions : List Region} {index : ℤ} :
      s.phase t = .returned b regions index →
      Step s ⟨t, .remember⟩
        ({ s with slots := Function.update s.slots b (some ⟨index, regions.length⟩) }.go t
          (.checking b regions))
  | skip {s : State} {t b : ℕ} {regions : List Region} {slot : Slot} :
      s.phase t = .checking b regions → s.slots b = some slot →
      ¬ (slot.index ≠ -1 ∧ regions.length = slot.size) → Step s ⟨t, .skip⟩ (s.go t .idle)
  | begin {s : State} {t b : ℕ} {regions : List Region} {slot : Slot} :
      s.phase t = .checking b regions → s.slots b = some slot →
      slot.index ≠ -1 ∧ regions.length = slot.size →
      Step s ⟨t, .begin⟩ (s.go t (.updating b slot.index regions 0))
  -- `update_slot`, without the lock of the count
  | ignore {s : State} {t b : ℕ} {startIndex : ℤ} {regions : List Region} :
      s.phase t = .updating b startIndex regions 0 → startIndex < 0 →
      Step s ⟨t, .skip⟩ (s.go t .idle)
  | update {s : State} {t b k v : ℕ} {startIndex : ℤ} {regions : List Region} :
      s.phase t = .updating b startIndex regions k → ¬ startIndex < 0 →
      (flat regions)[k]? = some v →
      Step s ⟨t, .update b⟩
        ({ s with entries := Function.update s.entries (2 * startIndex.toNat + k) v }.go t
          (.updating b startIndex regions (k + 1)))
  | done {s : State} {t b k : ℕ} {startIndex : ℤ} {regions : List Region} :
      s.phase t = .updating b startIndex regions k → ¬ startIndex < 0 →
      k = (flat regions).length → Step s ⟨t, .done⟩ (s.go t .idle)

/-! ### The invariant -/

/-- The range has been handed out to the registrar of the box. -/
def State.Owns (s : State) (b : ℕ) (index : ℤ) (size : ℕ) : Prop :=
  ∃ i : ℕ, index = i ∧ ⟨.box b, i, size⟩ ∈ s.grants

/-- What is known of a thread from where it is. -/
def State.At (s : State) (t : ℕ) : Phase → Prop
  | .storing i regions _ => i = s.regionCount ∧ i + regions.length ≤ maxRegions ∧
      ⟨.call, i, regions.length⟩ ∈ s.grants ∧ s.lock = some t
  | .addLocked _ | .reserveLocked _ _ => s.lock = some t
  | .returned b regions index => index = -1 ∨ s.Owns b index regions.length
  | .updating b index regions _ => s.Owns b index regions.length ∧
      s.slots b = some ⟨index, regions.length⟩
  | .idle | .adding _ | .reserving _ _ | .checking _ _ => True

/-- The ranges handed out do not meet and end at the count, but for the one that a call of
`add_regions` is filling, and registrars remember their own. -/
structure Inv (s : State) : Prop where
  count_le : s.regionCount ≤ maxRegions
  apart : s.grants.Pairwise Grant.Apart
  below : ∀ g ∈ s.grants, g.index + g.size ≤ s.regionCount ∨
    ∃ t regions k, s.phase t = .storing g.index regions k ∧ g.size = regions.length
  threads : ∀ t, s.At t (s.phase t)
  exclusive : ∀ t u b, (s.phase t).box? = some b → (s.phase u).box? = some b → t = u
  remembered : ∀ b slot, s.slots b = some slot → slot.index = -1 ∨ s.Owns b slot.index slot.size

theorem Inv.start : Inv start where
  count_le := Nat.zero_le _
  apart := List.Pairwise.nil
  below _ hg := nomatch hg
  threads _ := trivial
  exclusive _ _ _ h := nomatch h
  remembered _ _ h := nomatch h

variable {s : State}

theorem length_flat (regions : List Region) : (flat regions).length = 2 * regions.length := by
  induction regions with
  | nil => rfl
  | cons r regions ih =>
    rw [flat, List.flatMap_cons, List.length_append, ← flat, ih, List.length_cons]
    show 2 + 2 * regions.length = 2 * (regions.length + 1)
    omega

/-- The holder of the lock is the only thread that may be storing under it. -/
theorem Inv.below_of_lock (h : Inv s) {t : ℕ} (hlock : s.lock = some t)
    (hphase : ∀ i regions k, s.phase t ≠ .storing i regions k) :
    ∀ g ∈ s.grants, g.index + g.size ≤ s.regionCount := by
  intro g hg
  rcases h.below g hg with hle | ⟨u, regions, k, hu, -⟩
  · exact hle
  · have hat := h.threads u
    rw [hu] at hat
    obtain rfl : t = u := Option.some.inj (hlock.symm.trans hat.2.2.2)
    exact absurd hu (hphase _ _ _)

/-- A new range begins where all others end. -/
theorem Inv.apart_concat (h : Inv s) (hbelow : ∀ g ∈ s.grants, g.index + g.size ≤ s.regionCount)
    (owner : Owner) (size : ℕ) :
    (s.grants ++ [Grant.mk owner s.regionCount size]).Pairwise Grant.Apart := by
  refine List.pairwise_append.mpr ⟨h.apart, List.pairwise_singleton _ _, ?_⟩
  intro g hg g' hg'
  rw [List.mem_singleton.mp hg']
  exact Or.inl (hbelow g hg)

theorem State.Owns.mono {s' : State} {b : ℕ} {index : ℤ} {size : ℕ} (h : s.Owns b index size)
    (hsub : s.grants ⊆ s'.grants) : s'.Owns b index size := by
  obtain ⟨i, hi, hmem⟩ := h
  exact ⟨i, hi, hsub hmem⟩

/-- A thread between taking and giving back the lock holds it. -/
theorem Inv.lock_of_locked (h : Inv s) {t : ℕ} (ht : (s.phase t).Locked) : s.lock = some t := by
  have hat := h.threads t
  revert ht hat
  cases s.phase t with
  | storing i regions k => exact fun _ hat => hat.2.2.2
  | addLocked regions => exact fun _ hat => hat
  | reserveLocked b regions => exact fun _ hat => hat
  | _ => exact fun ht => ht.elim

/-- What is known of a thread stays true while the lock it holds, and the slot of the box it
is at, are left alone. -/
theorem State.At.frame {s' : State} {t : ℕ} {p : Phase} (h : s.At t p)
    (hgrants : s.grants ⊆ s'.grants)
    (hlock : p.Locked → s'.lock = s.lock ∧ s'.regionCount = s.regionCount)
    (hslots : ∀ b, p.box? = some b → s'.slots b = s.slots b) : s'.At t p := by
  cases p with
  | storing i regions k =>
    obtain ⟨hi, hroom, hgrant, hheld⟩ := h
    obtain ⟨hlock, hcount⟩ := hlock trivial
    exact ⟨hi.trans hcount.symm, hroom, hgrants hgrant, hlock.trans hheld⟩
  | addLocked regions => exact (hlock trivial).1.trans h
  | reserveLocked b regions => exact (hlock trivial).1.trans h
  | returned b regions index => exact h.imp id fun howns => howns.mono hgrants
  | updating b index regions k => exact ⟨h.1.mono hgrants, (hslots b rfl).trans h.2⟩
  | _ => trivial

/-- **One thread moves.**  What is left to show for the invariant after a step. -/
theorem Inv.frame (h : Inv s) {s' : State} {t : ℕ} {p : Phase}
    (hphase : s'.phase = Function.update s.phase t p) (hat : s'.At t p)
    (hcount : s'.regionCount ≤ maxRegions) (hapart : s'.grants.Pairwise Grant.Apart)
    (hgrants : s.grants ⊆ s'.grants)
    (hbelow : ∀ g ∈ s'.grants, g.index + g.size ≤ s'.regionCount ∨
      ∃ t regions k, s'.phase t = .storing g.index regions k ∧ g.size = regions.length)
    (hlock : ∀ u, u ≠ t → (s.phase u).Locked →
      s'.lock = s.lock ∧ s'.regionCount = s.regionCount)
    (hbox : ∀ b, p.box? = some b → (s.phase t).box? = some b ∨ ∀ u, (s.phase u).box? ≠ some b)
    (hslots : ∀ b, s'.slots b = s.slots b ∨ (s.phase t).box? = some b)
    (hremembered : ∀ b slot, s'.slots b = some slot →
      slot.index = -1 ∨ s'.Owns b slot.index slot.size) : Inv s' where
  count_le := hcount
  apart := hapart
  below := hbelow
  threads := by
    intro u
    by_cases hu : u = t
    · subst hu
      rw [hphase, Function.update_self]
      exact hat
    · rw [hphase, Function.update_of_ne hu]
      refine (h.threads u).frame hgrants (hlock u hu) fun b hb => ?_
      rcases hslots b with hsame | hmine
      · exact hsame
      · exact absurd (h.exclusive u t b hb hmine) hu
  exclusive := by
    intro u v b hu hv
    rw [hphase] at hu hv
    by_cases hut : u = t
    · subst hut
      by_cases hvu : v = u
      · exact hvu.symm
      · rw [Function.update_self] at hu
        rw [Function.update_of_ne hvu] at hv
        rcases hbox b hu with hmine | hnone
        · exact h.exclusive u v b hmine hv
        · exact absurd hv (hnone v)
    · rw [Function.update_of_ne hut] at hu
      by_cases hvt : v = t
      · subst hvt
        rw [Function.update_self] at hv
        rcases hbox b hv with hmine | hnone
        · exact h.exclusive u v b hu hmine
        · exact absurd hu (hnone u)
      · rw [Function.update_of_ne hvt] at hv
        exact h.exclusive u v b hu hv
  remembered := hremembered

/-- The ranges are as they were, when the thread that moves is not done storing. -/
theorem Inv.below_go (h : Inv s) {t : ℕ} {p : Phase}
    (hp : ∀ i regions k, s.phase t = .storing i regions k → ∃ k', p = .storing i regions k') :
    ∀ g ∈ s.grants, g.index + g.size ≤ s.regionCount ∨
      ∃ u regions k, (s.go t p).phase u = .storing g.index regions k ∧ g.size = regions.length := by
  intro g hg
  rcases h.below g hg with hle | ⟨u, regions, k, hu, hsize⟩
  · exact Or.inl hle
  · right
    by_cases hut : u = t
    · subst hut
      obtain ⟨k', rfl⟩ := hp _ _ _ hu
      exact ⟨u, regions, k', s.go_self u _, hsize⟩
    · exact ⟨u, regions, k, (s.go_of_ne hut p).trans hu, hsize⟩

/-- A step that changes neither count, lock, slots nor history. -/
theorem Inv.go (h : Inv s) {t : ℕ} {p : Phase} {entries : ℕ → ℕ} (hat : s.At t p)
    (hp : ∀ i regions k, s.phase t = .storing i regions k → ∃ k', p = .storing i regions k')
    (hbox : ∀ b, p.box? = some b →
      (s.phase t).box? = some b ∨ ∀ u, (s.phase u).box? ≠ some b) :
    Inv ({ s with entries := entries }.go t p) := by
  refine h.frame (p := p) rfl ?_ h.count_le h.apart (List.Subset.refl _) (h.below_go hp)
    (fun _ _ _ => ⟨rfl, rfl⟩) hbox (fun _ => Or.inl rfl) h.remembered
  exact hat.frame (List.Subset.refl _) (fun _ => ⟨rfl, rfl⟩) fun _ _ => rfl

/-- The lock, when it is free, is held by nobody. -/
theorem Inv.not_locked (h : Inv s) (hfree : s.lock = none) (u : ℕ) : ¬ (s.phase u).Locked :=
  fun hu => nomatch hfree.symm.trans (h.lock_of_locked hu)

/-- The lock, when a thread holds it, is held by nobody else. -/
theorem Inv.not_locked_of_ne (h : Inv s) {t u : ℕ} (hheld : s.lock = some t) (hne : u ≠ t) :
    ¬ (s.phase u).Locked := fun hu =>
  hne (Option.some.inj ((h.lock_of_locked hu).symm.trans hheld))

/-- A thread takes the lock. -/
theorem Inv.acquire (h : Inv s) {t : ℕ} {p : Phase} (hfree : s.lock = none)
    (hat : ({ s with lock := some t } : State).At t p)
    (hp : ∀ i regions k, s.phase t ≠ .storing i regions k)
    (hbox : ∀ b, p.box? = some b → (s.phase t).box? = some b) :
    Inv ({ s with lock := some t }.go t p) := by
  refine h.frame (p := p) rfl hat h.count_le h.apart (List.Subset.refl _)
    (h.below_go fun i regions k ht => absurd ht (hp i regions k)) ?_ (fun b hb => Or.inl (hbox b hb))
    (fun _ => Or.inl rfl) h.remembered
  intro u _ hu
  exact absurd hu (h.not_locked hfree u)

/-- The holder of the lock sets the count, gives the lock back, and goes on with a range of
its own or without one. -/
theorem Inv.release (h : Inv s) {t : ℕ} {p : Phase} {count : ℕ} {new : List Grant}
    (hheld : s.lock = some t) (hcount : count ≤ maxRegions)
    (hapart : (s.grants ++ new).Pairwise Grant.Apart)
    (hbelow : ∀ g ∈ s.grants ++ new, g.index + g.size ≤ count)
    (hat : ({ s with regionCount := count, lock := none, grants := s.grants ++ new } : State).At t p)
    (hbox : ∀ b, p.box? = some b → (s.phase t).box? = some b) :
    Inv ({ s with regionCount := count, lock := none, grants := s.grants ++ new }.go t p) := by
  have hsub : s.grants ⊆ s.grants ++ new := List.subset_append_left _ _
  refine h.frame (p := p) rfl hat hcount hapart hsub (fun g hg => Or.inl (hbelow g hg)) ?_
    (fun b hb => Or.inl (hbox b hb)) (fun _ => Or.inl rfl) ?_
  · intro u hne hu
    exact absurd hu (h.not_locked_of_ne hheld hne)
  · intro b slot hslot
    exact (h.remembered b slot hslot).imp id fun howns => howns.mono hsub

/-- The holder of the lock gives it back without a range of its own. -/
theorem Inv.release_same (h : Inv s) {t : ℕ} {p : Phase} {count : ℕ} (hheld : s.lock = some t)
    (hcount : count ≤ maxRegions) (hbelow : ∀ g ∈ s.grants, g.index + g.size ≤ count)
    (hat : ({ s with regionCount := count, lock := none } : State).At t p)
    (hbox : ∀ b, p.box? = some b → (s.phase t).box? = some b) :
    Inv ({ s with regionCount := count, lock := none }.go t p) := by
  have hrelease := @Inv.release s h t p count [] hheld hcount
    (by rw [List.append_nil]; exact h.apart) (by rw [List.append_nil]; exact hbelow)
    (by rw [List.append_nil]; exact hat) hbox
  rw [List.append_nil] at hrelease
  exact hrelease

theorem Inv.step (h : Inv s) {s' : State} {event : Event} (hstep : Step s event s') : Inv s' := by
  cases hstep with
  | add ht =>
    refine h.go trivial (fun i regions k hs => ?_) fun b hb => nomatch hb
    exact nomatch ht.symm.trans hs
  | @addAcquire t regions ht hfree =>
    refine h.acquire hfree rfl (fun i regions k hs => ?_) fun b hb => nomatch hb
    exact nomatch ht.symm.trans hs
  | @raises t regions ht hfull =>
    have hheld := h.lock_of_locked (t := t) (by rw [ht]; trivial)
    have hbelow := h.below_of_lock hheld fun i regions k hs => nomatch ht.symm.trans hs
    exact h.release_same (p := .idle) hheld h.count_le hbelow trivial fun b hb => nomatch hb
  | @passes t regions ht hroom =>
    have hheld := h.lock_of_locked (t := t) (by rw [ht]; trivial)
    have hbelow := h.below_of_lock hheld fun i regions k hs => nomatch ht.symm.trans hs
    have hsub : s.grants ⊆ s.grants ++ [Grant.mk .call s.regionCount regions.length] :=
      List.subset_append_left _ _
    refine h.frame (p := .storing s.regionCount regions 0) rfl
      ⟨rfl, Nat.not_lt.mp hroom, List.mem_append_right _ (List.mem_singleton_self _), hheld⟩
      h.count_le (h.apart_concat hbelow _ _) hsub ?_ (fun _ _ _ => ⟨rfl, rfl⟩)
      (fun b hb => nomatch hb) (fun _ => Or.inl rfl) ?_
    · intro g hg
      rcases List.mem_append.mp hg with hg | hg
      · exact Or.inl (hbelow g hg)
      · -- the range of the call itself, which starts at the count
        obtain rfl := List.mem_singleton.mp hg
        exact Or.inr ⟨t, regions, 0, State.go_self _ _ _, rfl⟩
    · intro b slot hslot
      exact (h.remembered b slot hslot).imp id fun howns => howns.mono hsub
  | @store t i k v regions ht hv =>
    have hat := h.threads t
    rw [ht] at hat
    refine h.go (p := .storing i regions (k + 1)) hat (fun i' regions' k' hs => ?_)
      fun b hb => nomatch hb
    obtain ⟨rfl, rfl, -⟩ := Phase.storing.inj (ht.symm.trans hs)
    exact ⟨k + 1, rfl⟩
  | @finish t i k regions ht hk =>
    have hat := h.threads t
    rw [ht] at hat
    obtain ⟨rfl, hroom, -, hheld⟩ := hat
    have hbelow : ∀ g ∈ s.grants, g.index + g.size ≤ s.regionCount + regions.length := by
      intro g hg
      rcases h.below g hg with hle | ⟨u, regions', k', hu, hsize⟩
      · exact le_trans hle (Nat.le_add_right _ _)
      · -- whoever is storing has the lock, so this is the range just filled
        have hlock := h.lock_of_locked (t := u) (by rw [hu]; trivial)
        obtain rfl : t = u := Option.some.inj (hheld.symm.trans hlock)
        obtain ⟨hindex, hregions, -⟩ := Phase.storing.inj (ht.symm.trans hu)
        rw [← hindex, hsize, hregions]
    exact h.release_same (p := .idle) hheld hroom hbelow trivial fun b hb => nomatch hb
  | @newGuard t b regions ht hnone =>
    refine h.go ?_ (fun i regions k hs => nomatch ht.symm.trans hs) fun b' hb' => ?_
    · split <;> trivial
    · have hb : (if s.slots b = none then Phase.reserving b regions
          else .checking b regions).box? = some b := by split <;> rfl
      obtain rfl := Option.some.inj (hb.symm.trans hb')
      exact Or.inr hnone
  | @reserveAcquire t b regions ht hfree =>
    refine h.acquire hfree rfl (fun i regions k hs => nomatch ht.symm.trans hs) fun b' hb' => ?_
    rw [ht]
    exact hb'
  | @refused t b regions ht hfull =>
    have hheld := h.lock_of_locked (t := t) (by rw [ht]; trivial)
    have hbelow := h.below_of_lock hheld fun i regions k hs => nomatch ht.symm.trans hs
    exact h.release_same (p := .returned b regions (-1)) hheld h.count_le hbelow (Or.inl rfl)
      fun b' hb' => by rw [ht]; exact hb'
  | @reserved t b regions ht hroom =>
    have hheld := h.lock_of_locked (t := t) (by rw [ht]; trivial)
    have hbelow := h.below_of_lock hheld fun i regions k hs => nomatch ht.symm.trans hs
    refine h.release (p := .returned b regions s.regionCount) hheld
      (Nat.not_lt.mp hroom) (h.apart_concat hbelow _ _) ?_
      (Or.inr ⟨s.regionCount, rfl, List.mem_append_right _ (List.mem_singleton_self _)⟩)
      fun b' hb' => by rw [ht]; exact hb'
    intro g hg
    rcases List.mem_append.mp hg with hg | hg
    · exact le_trans (hbelow g hg) (Nat.le_add_right _ _)
    · rw [List.mem_singleton.mp hg]
  | @remember t b regions index ht =>
    have hat := h.threads t
    rw [ht] at hat
    have hmine : (s.phase t).box? = some b := by rw [ht]; rfl
    refine h.frame (p := .checking b regions) rfl trivial h.count_le h.apart
      (List.Subset.refl _) (h.below_go fun i regions k hs => nomatch ht.symm.trans hs)
      (fun _ _ _ => ⟨rfl, rfl⟩) ?_ ?_ ?_
    · intro b' hb'
      obtain rfl := Option.some.inj hb'
      exact Or.inl hmine
    · intro b'
      by_cases hb : b' = b
      · exact Or.inr (hb ▸ hmine)
      · exact Or.inl (Function.update_of_ne hb _ _)
    · intro b' slot hslot
      change Function.update s.slots b (some ⟨index, regions.length⟩) b' = some slot at hslot
      by_cases hb : b' = b
      · subst hb
        rw [Function.update_self] at hslot
        obtain rfl := Option.some.inj hslot
        exact hat
      · rw [Function.update_of_ne hb] at hslot
        exact h.remembered b' slot hslot
  | @skip t b regions slot ht hslot hno =>
    exact h.go trivial (fun i regions k hs => nomatch ht.symm.trans hs) fun b' hb' => nomatch hb'
  | @begin t b regions slot ht hslot hyes =>
    have howns := (h.remembered b slot hslot).resolve_left hyes.1
    refine h.go (p := .updating b slot.index regions 0) ?_
      (fun i regions k hs => nomatch ht.symm.trans hs) fun b' hb' => ?_
    · rw [← hyes.2] at howns
      refine ⟨howns, ?_⟩
      rw [hslot, hyes.2]
    · left
      rw [ht]
      exact hb'
  | @ignore t b startIndex regions ht hneg =>
    exact h.go trivial (fun i regions k hs => nomatch ht.symm.trans hs) fun b' hb' => nomatch hb'
  | @update t b k v startIndex regions ht hnonneg hv =>
    have hat := h.threads t
    rw [ht] at hat
    refine h.go (p := .updating b startIndex regions (k + 1)) hat
      (fun i regions k hs => nomatch ht.symm.trans hs) fun b' hb' => ?_
    left
    rw [ht]
    exact hb'
  | @done t b k startIndex regions ht hnonneg hk =>
    exact h.go trivial (fun i regions k hs => nomatch ht.symm.trans hs) fun b' hb' => nomatch hb'

theorem Inv.run {events : List Event} (hrun : Run Step RegionTable.start events s) : Inv s :=
  hrun.invariant Inv.start fun h hstep => h.step hstep

theorem Inv.grant_le (h : Inv s) {g : Grant} (hg : g ∈ s.grants) :
    g.index + g.size ≤ maxRegions := by
  rcases h.below g hg with hle | ⟨t, regions, k, ht, hsize⟩
  · exact le_trans hle h.count_le
  · have hat := h.threads t
    rw [ht] at hat
    rw [hsize]
    exact hat.2.1

/-! ### What a step changes -/

/-- One of the values of a range is stored. -/
theorem store_frame {i k v : ℕ} {regions : List Region} {owner : Owner} {entries : ℕ → ℕ}
    (hv : (flat regions)[k]? = some v) {x : ℕ} (hx : ¬ (Grant.mk owner i regions.length).Has x) :
    Function.update entries (2 * i + k) v x = entries x := by
  have hk := (List.getElem?_eq_some_iff.mp hv).1
  rw [length_flat] at hk
  refine Function.update_of_ne (fun hxk => hx ?_) _ _
  rw [hxk, Grant.Has]
  dsimp only
  omega

/-- `update_slot` stores into the range of its own box and does not touch the count. -/
theorem Inv.update_frame (h : Inv s) {s' : State} {t b : ℕ}
    (hstep : Step s ⟨t, .update b⟩ s') :
    s'.regionCount = s.regionCount ∧ ∃ g ∈ s.grants, g.owner = .box b ∧
      s.slots b = some ⟨g.index, g.size⟩ ∧ ∀ x, ¬ g.Has x → s'.entries x = s.entries x := by
  cases hstep with
  | @update _ _ k v startIndex regions ht hnonneg hv =>
    have hat := h.threads t
    rw [ht] at hat
    obtain ⟨⟨i, rfl, hmem⟩, hslot⟩ := hat
    exact ⟨rfl, _, hmem, rfl, hslot, fun x hx => store_frame hv hx⟩

/-- `add_regions` stores into the range that it has just been given. -/
theorem Inv.store_frame (h : Inv s) {s' : State} {t : ℕ} (hstep : Step s ⟨t, .store⟩ s') :
    ∃ g ∈ s.grants, g.owner = .call ∧ g.index = s.regionCount ∧
      ∀ x, ¬ g.Has x → s'.entries x = s.entries x := by
  cases hstep with
  | @store _ i k v regions ht hv =>
    have hat := h.threads t
    rw [ht] at hat
    obtain ⟨hi, -, hmem, -⟩ := hat
    exact ⟨_, hmem, rfl, hi, fun x hx => RegionTable.store_frame hv hx⟩

/-- **Region table.**  In every state that any interleaving of `add_regions` and of rotations
reaches, the count is within the table and the ranges handed out do not meet.  No step
lowers the count or takes a range back; `update_slot` changes entries of the range of its own
box only, and not the count; `add_regions` stores in its own range only; and no other step
changes an entry, nor any but the last of `add_regions` and the granting one of `reserve_slot`
the count, so that a call that raises or is refused has changed nothing. -/
theorem region_table_integrity {events : List Event} (hrun : Run Step RegionTable.start events s) :
    s.regionCount ≤ maxRegions ∧ s.grants.Pairwise Grant.Apart ∧
    (∀ g ∈ s.grants, g.index + g.size ≤ maxRegions) ∧
    ∀ event s', Step s event s' →
      s.regionCount ≤ s'.regionCount ∧ s.grants <+: s'.grants ∧
      (∀ b, event.act = .update b → s'.regionCount = s.regionCount ∧
        ∃ g ∈ s.grants, g.owner = .box b ∧ s.slots b = some ⟨g.index, g.size⟩ ∧
          ∀ x, ¬ g.Has x → s'.entries x = s.entries x) ∧
      (event.act = .store → ∃ g ∈ s.grants, g.owner = .call ∧ g.index = s.regionCount ∧
        ∀ x, ¬ g.Has x → s'.entries x = s.entries x) ∧
      ((∀ b, event.act ≠ .update b) → event.act ≠ .store → s'.entries = s.entries) ∧
      (event.act ≠ .finish → event.act ≠ .reserved → s'.regionCount = s.regionCount) := by
  have h := Inv.run hrun
  refine ⟨h.count_le, h.apart, fun g hg => h.grant_le hg, fun ⟨t, act⟩ s' hstep => ?_⟩
  refine ⟨?_, ?_, fun b hact => ?_, fun hact => ?_, fun hupdate hstore => ?_,
    fun hfinish hreserved => ?_⟩
  · cases hstep with
    | @finish _ i k regions ht hk =>
      have hat := h.threads t
      rw [ht] at hat
      rw [← hat.1]
      exact Nat.le_add_right _ _
    | reserved ht hroom => exact Nat.le_add_right _ _
    | _ => exact le_rfl
  · cases hstep with
    | passes ht hroom => exact List.prefix_append _ _
    | reserved ht hroom => exact List.prefix_append _ _
    | _ => exact List.prefix_refl _
  · obtain rfl : act = .update b := hact
    exact h.update_frame hstep
  · obtain rfl : act = .store := hact
    exact h.store_frame hstep
  · cases hstep with
    | store => exact absurd rfl hstore
    | @update _ b => exact absurd rfl (hupdate b)
    | _ => rfl
  · cases hstep with
    | finish => exact absurd rfl hfinish
    | reserved => exact absurd rfl hreserved
    | _ => rfl

/-! ### Calls that nobody interrupts -/

/-- The table as `ProcessWatchdog` has it. -/
def State.table (s : State) : ProcessWatchdog :=
  ⟨fun k => (s.entries (2 * k), s.entries (2 * k + 1)), s.regionCount⟩

/-- The values from place `k` on, stored from entry `i + k` on. -/
def stored (i k : ℕ) (values : List ℕ) (entries : ℕ → ℕ) : ℕ → ℕ :=
  fun x => if i + k ≤ x then values[x - i]?.getD (entries x) else entries x

theorem stored_cons (i : ℕ) {k v : ℕ} {values : List ℕ} (entries : ℕ → ℕ)
    (hv : values[k]? = some v) :
    stored i (k + 1) values (Function.update entries (i + k) v) = stored i k values entries := by
  funext x
  rw [stored, stored, Function.update_apply]
  by_cases hx : x = i + k
  · have hsub : i + k - i = k := by omega
    rw [if_pos hx, if_neg (by omega), if_pos (by omega), hx, hsub, hv]
    rfl
  · rw [if_neg hx]
    by_cases hlt : i + k ≤ x
    · rw [if_pos (by omega), if_pos hlt]
    · rw [if_neg (by omega), if_neg hlt]

theorem stored_length (i : ℕ) (values : List ℕ) (entries : ℕ → ℕ) :
    stored i values.length values entries = entries := by
  funext x
  rw [stored]
  split
  · rw [List.getElem?_eq_none (by omega)]
    rfl
  · rfl

theorem getElem?_flat (regions : List Region) (k : ℕ) :
    (flat regions)[2 * k]? = regions[k]?.map Prod.fst ∧
      (flat regions)[2 * k + 1]? = regions[k]?.map Prod.snd := by
  induction regions generalizing k with
  | nil => exact ⟨rfl, rfl⟩
  | cons r regions ih =>
    cases k with
    | zero => exact ⟨rfl, rfl⟩
    | succ k => exact ih k

/-- All the values stored are all the regions stored. -/
theorem table_stored (i : ℕ) (regions : List Region) (entries : ℕ → ℕ) :
    (fun k => (stored (2 * i) 0 (flat regions) entries (2 * k),
      stored (2 * i) 0 (flat regions) entries (2 * k + 1)))
    = ProcessWatchdog.store i regions fun k => (entries (2 * k), entries (2 * k + 1)) := by
  funext k
  rw [ProcessWatchdog.store_apply, stored, stored]
  by_cases hk : i ≤ k
  · have heven : 2 * k - 2 * i = 2 * (k - i) := by omega
    have hodd : 2 * k + 1 - 2 * i = 2 * (k - i) + 1 := by omega
    rw [if_pos (by omega), if_pos (by omega), if_pos hk, heven, hodd,
      (getElem?_flat regions (k - i)).1, (getElem?_flat regions (k - i)).2]
    cases regions[k - i]? <;> rfl
  · rw [if_neg (by omega), if_neg (by omega), if_neg hk]

theorem State.go_go (s : State) (t : ℕ) (p q : Phase) : (s.go t p).go t q = s.go t q := by
  rw [State.go, State.go, State.go]
  simp only [Function.update_idem]

theorem State.go_eq {s : State} {t : ℕ} {p : Phase} (h : s.phase t = p) : s.go t p = s := by
  rw [State.go, ← h, Function.update_eq_self]

/-- A loop of stores, `q k` being the thread with `k` values done. -/
theorem stores_alone {t i : ℕ} {regions : List Region} {q : ℕ → Phase}
    (hq : ∀ (s : State) (k v : ℕ), s.phase t = q k → (flat regions)[k]? = some v →
      ∃ e, Step s e ({ s with entries := Function.update s.entries (2 * i + k) v }.go t (q (k + 1))))
    {n : ℕ} : ∀ {s : State} {k : ℕ}, s.phase t = q k → k + n = (flat regions).length →
      ∃ events, Run Step s events
        ({ s with entries := stored (2 * i) k (flat regions) s.entries }.go t
          (q (flat regions).length)) := by
  induction n with
  | zero =>
    intro s k ht hk
    obtain rfl : k = (flat regions).length := hk
    rw [stored_length, State.go_eq (s := { s with entries := s.entries }) ht]
    exact ⟨[], Run.nil⟩
  | succ n ih =>
    intro s k ht hk
    have hv := List.getElem?_eq_getElem (l := flat regions) (i := k) (by omega)
    obtain ⟨e, hstep⟩ := hq s k _ ht hv
    obtain ⟨events, hrun⟩ := ih (s := { s with
      entries := Function.update s.entries (2 * i + k) (flat regions)[k] }.go t (q (k + 1)))
      (State.go_self _ _ _) (by omega)
    refine ⟨[e] ++ events, (Run.single hstep).trans ?_⟩
    rw [← stored_cons (2 * i) s.entries hv]
    change Run Step _ events (({ s with
      entries := stored (2 * i) (k + 1) (flat regions)
        (Function.update s.entries (2 * i + k) (flat regions)[k]) }.go t (q (k + 1))).go t _) at hrun
    rwa [State.go_go] at hrun

/-- A call of `add_regions` that nobody interrupts is the call of `ProcessWatchdog`. -/
theorem add_alone {t : ℕ} (ht : s.phase t = .idle) (hfree : s.lock = none)
    (regions : List Region) :
    ∃ events s', Run Step s events s' ∧ s'.phase = s.phase ∧ s'.lock = none ∧
      s'.slots = s.slots ∧ s'.table = (s.table.addRegions regions).getD s.table := by
  have hadd := Run.single (@Step.add s t regions ht)
  have hacquire := hadd.snoc (Step.addAcquire (State.go_self s t _) hfree)
  have hphase : Function.update s.phase t .idle = s.phase := by
    rw [← ht, Function.update_eq_self]
  set s₁ : State := { s.go t (.adding regions) with lock := some t }.go t (.addLocked regions)
  by_cases hfull : s.regionCount + regions.length > maxRegions
  · have hraises := hacquire.snoc (Step.raises (State.go_self _ t _) hfull)
    refine ⟨_, _, hraises, ?_, rfl, rfl, ?_⟩
    · show Function.update (Function.update (Function.update s.phase t _) t _) t .idle = _
      rw [Function.update_idem, Function.update_idem, hphase]
    · rw [ProcessWatchdog.addRegions, if_pos (show s.table.regionCount + _ > _ from hfull)]
      rfl
  · have hpasses := hacquire.snoc (Step.passes (State.go_self _ t _) hfull)
    obtain ⟨events, hstores⟩ := stores_alone (t := t) (i := s.regionCount)
      (q := Phase.storing s.regionCount regions) (fun s k v ht hv => ⟨_, Step.store ht hv⟩)
      (State.go_self _ t _) (Nat.zero_add (flat regions).length)
    have hfinish := (hpasses.trans hstores).snoc (Step.finish (State.go_self _ t _) rfl)
    refine ⟨_, _, hfinish, ?_, rfl, rfl, ?_⟩
    · show Function.update (Function.update (Function.update (Function.update
        (Function.update s.phase t _) t _) t _) t _) t .idle = _
      simp only [Function.update_idem, hphase]
    · rw [ProcessWatchdog.addRegions, if_neg (show ¬ s.table.regionCount + _ > _ from hfull)]
      exact congrArg (fun f => ProcessWatchdog.mk f (s.regionCount + regions.length))
        (table_stored s.regionCount regions s.entries)

/-- The second half of `_on_new_guard`, from the check on. -/
theorem checking_alone {t b : ℕ} {regions : List Region} {slot : Slot}
    (ht : s.phase t = .checking b regions) (hslot : s.slots b = some slot) :
    ∃ events s', Run Step s events s' ∧ s'.phase = Function.update s.phase t .idle ∧
      s'.lock = s.lock ∧ s'.slots = s.slots ∧
      s'.table = if slot.index ≠ -1 ∧ regions.length = slot.size
        then s.table.updateSlot slot.index regions else s.table := by
  by_cases hyes : slot.index ≠ -1 ∧ regions.length = slot.size
  swap
  · exact ⟨_, _, Run.single (Step.skip ht hslot hyes), rfl, rfl, rfl, (if_neg hyes).symm⟩
  rw [if_pos hyes]
  have hbegin := Run.single (Step.begin ht hslot hyes)
  by_cases hneg : slot.index < 0
  · have hignore := hbegin.snoc (Step.ignore (State.go_self s t _) hneg)
    rw [State.go_go] at hignore
    exact ⟨_, _, hignore, rfl, rfl, rfl, by rw [ProcessWatchdog.updateSlot, if_pos hneg]; rfl⟩
  · obtain ⟨events, hstores⟩ := stores_alone (t := t) (i := slot.index.toNat)
      (q := Phase.updating b slot.index regions)
      (fun s k v ht hv => ⟨_, Step.update ht hneg hv⟩)
      (State.go_self s t _) (Nat.zero_add (flat regions).length)
    have hdone := (hbegin.trans hstores).snoc (Step.done (State.go_self _ t _) hneg rfl)
    refine ⟨_, _, hdone, ?_, rfl, rfl, ?_⟩
    · show Function.update (Function.update (Function.update s.phase t _) t _) t .idle = _
      rw [Function.update_idem, Function.update_idem]
    · rw [ProcessWatchdog.updateSlot, if_neg hneg]
      exact congrArg (fun f => ProcessWatchdog.mk f s.regionCount)
        (table_stored slot.index.toNat regions s.entries)

/-- A call of `_on_new_guard` that nobody interrupts is the one of the storage. -/
theorem newGuard_alone {t b : ℕ} (ht : s.phase t = .idle) (hfree : s.lock = none)
    (hnone : ∀ u, (s.phase u).box? ≠ some b) (regions : List Region) :
    ∃ events s', Run Step s events s' ∧ s'.phase = s.phase ∧ s'.lock = none ∧
      s'.slots = Function.update s.slots b
        (some (SecureVirtualStorage.onNewGuard regions s.table (s.slots b)).2) ∧
      s'.table = (SecureVirtualStorage.onNewGuard regions s.table (s.slots b)).1 := by
  have hphase : Function.update s.phase t .idle = s.phase := by
    rw [← ht, Function.update_eq_self]
  have hnew := Run.single (@Step.newGuard s t b regions ht hnone)
  rw [SecureVirtualStorage.onNewGuard]
  cases hslot : s.slots b with
  | some slot =>
    rw [hslot, if_neg (nomatch ·)] at hnew
    obtain ⟨events, s', hrun, hidle, hlock, hslots, htable⟩ :=
      checking_alone (s := s.go t (.checking b regions)) (State.go_self s t _) hslot
    refine ⟨_, s', hnew.trans hrun, ?_, hlock.trans hfree, ?_, ?_⟩
    · rw [hidle]
      show Function.update (Function.update s.phase t _) t .idle = _
      rw [Function.update_idem, hphase]
    · rw [hslots, SecureVirtualStorage.takeSlot]
      have hkeep : Function.update s.slots b (some slot) = s.slots := by
        rw [← hslot, Function.update_eq_self]
      dsimp only
      split <;> exact hkeep.symm
    · rw [htable, SecureVirtualStorage.takeSlot]
      dsimp only
      split <;> rfl
  | none =>
    rw [hslot, if_pos rfl] at hnew
    have hacquire := hnew.snoc (Step.reserveAcquire (State.go_self s t _) hfree)
    set s₁ : State := { s.go t (.reserving b regions) with lock := some t }.go t
      (.reserveLocked b regions)
    -- what `reserve_slot` does, and what it returns
    obtain ⟨index, s₂, hreserve, hphase₂, hlock₂, hslots₂, htable₂⟩ :
        ∃ (index : ℤ) (s₂ : State), (∃ e, Step s₁ e (s₂.go t (.returned b regions index))) ∧
          s₂.phase = s₁.phase ∧ s₂.lock = none ∧ s₂.slots = s.slots ∧
          s.table.reserveSlot regions.length = (s₂.table, index) := by
      by_cases hfull : s.regionCount + regions.length > maxRegions
      · refine ⟨-1, _, ⟨_, Step.refused (State.go_self _ t _) hfull⟩, rfl, rfl, rfl, ?_⟩
        rw [ProcessWatchdog.reserveSlot, if_pos (show s.table.regionCount + _ > _ from hfull)]
        rfl
      · refine ⟨_, _, ⟨_, Step.reserved (State.go_self _ t _) hfull⟩, rfl, rfl, rfl, ?_⟩
        rw [ProcessWatchdog.reserveSlot, if_neg (show ¬ s.table.regionCount + _ > _ from hfull)]
        rfl
    obtain ⟨e, hreserve⟩ := hreserve
    have hremember := (hacquire.snoc hreserve).snoc (Step.remember (State.go_self _ t _))
    set s₃ : State := { s₂ with
      slots := Function.update s₂.slots b (some ⟨index, regions.length⟩) }.go t
        (.checking b regions) with hs₃
    have hslot₃ : s₃.slots b = some ⟨index, regions.length⟩ := Function.update_self ..
    have hidle₃ : Function.update s₃.phase t .idle = s.phase := by
      rw [hs₃, State.go, Function.update_idem]
      dsimp only
      rw [hphase₂]
      show Function.update (Function.update (Function.update s.phase t _) t _) t .idle = _
      rw [Function.update_idem, Function.update_idem, hphase]
    change Run Step s _ (({ s₂ with
      slots := Function.update s₂.slots b (some ⟨index, regions.length⟩) }.go t
        (.returned b regions index)).go t (.checking b regions)) at hremember
    rw [State.go_go, ← hs₃] at hremember
    obtain ⟨events, s', hrun, hidle, hlock, hslots, htable⟩ :=
      checking_alone (s := s₃) (State.go_self _ t _) hslot₃
    refine ⟨_, s', hremember.trans hrun, hidle.trans hidle₃, hlock.trans hlock₂, ?_, ?_⟩
    · rw [hslots, SecureVirtualStorage.takeSlot, htable₂]
      show Function.update s₂.slots b _ = _
      rw [hslots₂]
      dsimp only
      split <;> rfl
    · rw [htable, SecureVirtualStorage.takeSlot, htable₂]
      dsimp only
      split <;> rfl

/-- Two regions are registered, and then a box rotates twice, to guards of as many pages. -/
theorem region_table_integrity_registered :
    ∃ events s w₁ slot₁ w₂ slot₂, Run Step RegionTable.start events s ∧
      SecureVirtualStorage.onNewGuard [(8192, 4096), (12288, 4096)]
        ((ProcessWatchdog.new.addRegions [(4096, 176), (16384, 4096)]).getD .new) none
        = (w₁, slot₁) ∧
      SecureVirtualStorage.onNewGuard [(20480, 4096), (24576, 4096)] w₁ (some slot₁)
        = (w₂, slot₂) ∧
      s.slots 7 = some slot₂ ∧ s.table = w₂ ∧
      s.regionCount ≤ maxRegions ∧ s.grants.Pairwise Grant.Apart := by
  obtain ⟨events₁, s₁, hadd, hphase₁, hlock₁, hslots₁, htable₁⟩ :=
    add_alone (s := RegionTable.start) (t := 0) rfl rfl [(4096, 176), (16384, 4096)]
  obtain ⟨events₂, s₂, hfirst, hphase₂, hlock₂, hslots₂, htable₂⟩ :=
    newGuard_alone (s := s₁) (t := 1) (b := 7) (by rw [hphase₁]; rfl) hlock₁
      (by rw [hphase₁]; exact fun _ => nofun) [(8192, 4096), (12288, 4096)]
  obtain ⟨events₃, s₃, hsecond, -, -, hslots₃, htable₃⟩ :=
    newGuard_alone (s := s₂) (t := 1) (b := 7) (by rw [hphase₂, hphase₁]; rfl) hlock₂
      (by rw [hphase₂, hphase₁]; exact fun _ => nofun) [(20480, 4096), (24576, 4096)]
  have hrun := (hadd.trans hfirst).trans hsecond
  have hnone : s₁.slots 7 = none := by rw [hslots₁]; rfl
  rw [hnone, htable₁] at hslots₂ htable₂
  have hslot : s₂.slots 7 = some (SecureVirtualStorage.onNewGuard [(8192, 4096), (12288, 4096)]
      ((ProcessWatchdog.new.addRegions [(4096, 176), (16384, 4096)]).getD .new) none).2 := by
    rw [hslots₂]
    exact Function.update_self ..
  rw [hslot, htable₂] at hslots₃ htable₃
  obtain ⟨hcount, hapart, -⟩ := region_table_integrity hrun
  refine ⟨_, s₃, _, _, _, _, hrun, rfl, rfl, ?_, htable₃, hcount, hapart⟩
  rw [hslots₃]
  exact Function.update_self ..

end RegionTable
