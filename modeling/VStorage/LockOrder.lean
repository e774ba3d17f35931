/-
Threads that take locks in an order.

A thread runs code of which only the locking is left: `with` statements, sequences, choices
and loops.  Every way out of a `with` statement gives the lock back, exceptions included,
and a thread that wants a lock which is taken waits.  When every lock is wanted only while
locks of lower rank are held, or the lock itself if it may be taken again, nobody waits in
a circle.

* `Inv.step`: the ranks go up along the locks of every thread, and no lock has two holders;
* `Inv.locks_acyclic`, `Inv.threads_acyclic`: so no lock and no thread waits for itself;
* `Inv.progress`: and whoever waits, waits in the end for a thread that can go on.
-/
import Mathlib
import VStorage.Runs

namespace LockOrder

variable {Λ ι : Type*}

/-! ### Threads -/

/-- The locking that some code does. -/
inductive Code (Λ : Type*)
  | skip
  /-- `with l: body` -/
  | within (l : Λ) (body : Code Λ)
  | seq (first next : Code Λ)
  | choice (left right : Code Λ)
  /-- One of many, say one for each object. -/
  | any (f : ℕ → Code Λ)
  | star (body : Code Λ)

/-- What a thread still has to do: run some code, or give a lock back. -/
inductive Item (Λ : Type*)
  | run (c : Code Λ)
  | release (l : Λ)

/-- The locks that a thread holds, the last one first. -/
def held : List (Item Λ) → List Λ
  | [] => []
  | .run _ :: k => held k
  | .release l :: k => l :: held k

/-- The lock that a thread has to take next. -/
def wanted : List (Item Λ) → Option Λ
  | .run (.within l _) :: _ => some l
  | _ => none

/-- An exception, a `return` or a `break` leaves out code up to the next lock. -/
inductive Drops : List (Item Λ) → List (Item Λ) → Prop
  | refl {k : List (Item Λ)} : Drops k k
  | run {c : Code Λ} {k k' : List (Item Λ)} : Drops k k' → Drops (.run c :: k) k'

/-- A step of one thread that takes no lock. -/
inductive Local : List (Item Λ) → List (Item Λ) → Prop
  | seq {first next : Code Λ} {k : List (Item Λ)} :
      Local (.run (.seq first next) :: k) (.run first :: .run next :: k)
  | left {left right : Code Λ} {k : List (Item Λ)} :
      Local (.run (.choice left right) :: k) (.run left :: k)
  | right {left right : Code Λ} {k : List (Item Λ)} :
      Local (.run (.choice left right) :: k) (.run right :: k)
  | any {f : ℕ → Code Λ} {k : List (Item Λ)} (n : ℕ) :
      Local (.run (.any f) :: k) (.run (f n) :: k)
  | again {body : Code Λ} {k : List (Item Λ)} :
      Local (.run (.star body) :: k) (.run body :: .run (.star body) :: k)
  /-- The code has done its work, or is left. -/
  | leave {c : Code Λ} {k k' : List (Item Λ)} :
      wanted (.run c :: k) = none → Drops k k' → Local (.run c :: k) k'
  /-- And with it the `with` statement. -/
  | release {l : Λ} {k k' : List (Item Λ)} : Drops k k' → Local (.release l :: k) k'

section

variable [DecidableEq ι] (ops : Set (Code Λ)) (reentrant : Set Λ)

/-- A step of a thread `t`, which starts an operation when it has nothing to do. -/
inductive Step : (ι → List (Item Λ)) → ι → (ι → List (Item Λ)) → Prop
  | start {s : ι → List (Item Λ)} {t : ι} {c : Code Λ} : s t = [] → c ∈ ops →
      Step s t (Function.update s t [.run c])
  | go {s : ι → List (Item Λ)} {t : ι} {k : List (Item Λ)} : Local (s t) k →
      Step s t (Function.update s t k)
  | acquire {s : ι → List (Item Λ)} {t : ι} {l : Λ} {body : Code Λ} {k : List (Item Λ)} :
      s t = .run (.within l body) :: k → (∀ u, u ≠ t → l ∉ held (s u)) →
      (l ∈ held (s t) → l ∈ reentrant) →
      Step s t (Function.update s t (.run body :: .release l :: k))

end

/-- A thread wants a lock that a thread holds, possibly itself. -/
def Blocks (reentrant : Set Λ) (s : ι → List (Item Λ)) (t u : ι) : Prop :=
  ∃ l, wanted (s t) = some l ∧ l ∈ held (s u) ∧ (t = u → l ∉ reentrant)

/-- The holder of a lock wants another one, which is held. -/
def WaitsFor (reentrant : Set Λ) (s : ι → List (Item Λ)) (l l' : Λ) : Prop :=
  ∃ t u, l ∈ held (s t) ∧ wanted (s t) = some l' ∧ l' ∈ held (s u) ∧ (t = u → l' ∉ reentrant)

/-! ### Order -/

/-- A lock that may be taken while those of a list are held. -/
def Fits (rank : Λ → ℕ) (reentrant : Set Λ) (locks : List Λ) (l : Λ) : Prop :=
  ∀ h ∈ locks, rank h < rank l ∨ h = l ∧ l ∈ reentrant

/-- Code that may be run while those are held. -/
def Code.Ordered (rank : Λ → ℕ) (reentrant : Set Λ) : List Λ → Code Λ → Prop
  | _, .skip => True
  | locks, .within l body =>
      Fits rank reentrant locks l ∧ body.Ordered rank reentrant (l :: locks)
  | locks, .seq first next =>
      first.Ordered rank reentrant locks ∧ next.Ordered rank reentrant locks
  | locks, .choice left right =>
      left.Ordered rank reentrant locks ∧ right.Ordered rank reentrant locks
  | locks, .any f => ∀ n, (f n).Ordered rank reentrant locks
  | locks, .star body => body.Ordered rank reentrant locks

/-- A thread that has kept to the order, and will. -/
def Ordered (rank : Λ → ℕ) (reentrant : Set Λ) : List (Item Λ) → Prop
  | [] => True
  | .run c :: k => c.Ordered rank reentrant (held k) ∧ Ordered rank reentrant k
  | .release l :: k => Fits rank reentrant (held k) l ∧ Ordered rank reentrant k

variable {rank : Λ → ℕ} {reentrant : Set Λ} {ops : Set (Code Λ)} {k k' : List (Item Λ)}

theorem Drops.held_eq (h : Drops k k') : held k = held k' := by
  induction h with
  | refl => rfl
  | run _ ih => exact ih

theorem Drops.ordered (h : Drops k k') (hk : Ordered rank reentrant k) :
    Ordered rank reentrant k' := by
  induction h with
  | refl => exact hk
  | run _ ih => exact ih hk.2

/-- **One thread.**  A step without a lock keeps the order and takes no lock. -/
theorem Local.ordered (h : Local k k') (hk : Ordered rank reentrant k) :
    Ordered rank reentrant k' ∧ ∀ l ∈ held k', l ∈ held k := by
  cases h with
  | seq =>
    obtain ⟨⟨hfirst, hnext⟩, hk⟩ := hk
    exact ⟨⟨hfirst, hnext, hk⟩, fun _ => id⟩
  | left => exact ⟨⟨hk.1.1, hk.2⟩, fun _ => id⟩
  | right => exact ⟨⟨hk.1.2, hk.2⟩, fun _ => id⟩
  | any n => exact ⟨⟨hk.1 n, hk.2⟩, fun _ => id⟩
  | again => exact ⟨⟨hk.1, hk.1, hk.2⟩, fun _ => id⟩
  | leave _ hdrops =>
    refine ⟨hdrops.ordered hk.2, fun l hl => ?_⟩
    rw [← hdrops.held_eq] at hl
    exact hl
  | release hdrops =>
    refine ⟨hdrops.ordered hk.2, fun l hl => ?_⟩
    rw [← hdrops.held_eq] at hl
    exact List.mem_cons_of_mem _ hl

/-- What a thread wants fits what it holds. -/
theorem Ordered.fits (hk : Ordered rank reentrant k) {l : Λ} (hl : wanted k = some l) :
    Fits rank reentrant (held k) l := by
  unfold wanted at hl
  split at hl
  · obtain rfl := Option.some.inj hl
    exact hk.1.1
  · exact nomatch hl

/-! ### All threads -/

/-- Every thread keeps to the order, and no lock is held by two. -/
structure Inv (rank : Λ → ℕ) (reentrant : Set Λ) (s : ι → List (Item Λ)) : Prop where
  ordered : ∀ t, Ordered rank reentrant (s t)
  exclusive : ∀ t u l, l ∈ held (s t) → l ∈ held (s u) → t = u

variable {s s' : ι → List (Item Λ)} {t u : ι}

theorem inv_idle : Inv rank reentrant fun _ : ι => [] where
  ordered _ := trivial
  exclusive _ _ _ h := nomatch h

section

variable [DecidableEq ι]

/-- One thread changes, and takes no lock that another one holds. -/
theorem Inv.update (h : Inv rank reentrant s) (hk : Ordered rank reentrant k)
    (hnew : ∀ l ∈ held k, ∀ u, u ≠ t → l ∉ held (s u)) :
    Inv rank reentrant (Function.update s t k) where
  ordered u := by
    by_cases hu : u = t
    · rw [hu, Function.update_self]
      exact hk
    · rw [Function.update_of_ne hu]
      exact h.ordered u
  exclusive u v l hlu hlv := by
    by_cases hu : u = t
    · by_cases hv : v = t
      · exact hu.trans hv.symm
      · rw [hu, Function.update_self] at hlu
        rw [Function.update_of_ne hv] at hlv
        exact absurd hlv (hnew l hlu v hv)
    · rw [Function.update_of_ne hu] at hlu
      by_cases hv : v = t
      · rw [hv, Function.update_self] at hlv
        exact absurd hlu (hnew l hlv u hu)
      · rw [Function.update_of_ne hv] at hlv
        exact h.exclusive u v l hlu hlv

theorem Inv.step (h : Inv rank reentrant s) (hops : ∀ c ∈ ops, c.Ordered rank reentrant [])
    (hstep : Step ops reentrant s t s') : Inv rank reentrant s' := by
  -- what a thread holds, no other one does
  have hown : ∀ l ∈ held (s t), ∀ u, u ≠ t → l ∉ held (s u) := fun l hl u hu hlu =>
    hu (h.exclusive u t l hlu hl)
  cases hstep with
  | start _ hc => exact h.update ⟨hops _ hc, trivial⟩ fun l hl => nomatch hl
  | go hlocal =>
    obtain ⟨hk, hsub⟩ := hlocal.ordered (h.ordered t)
    exact h.update hk fun l hl => hown l (hsub l hl)
  | @acquire l body k ht hfree _ =>
    have hk := h.ordered t
    rw [ht] at hk
    obtain ⟨⟨hfits, hbody⟩, hk⟩ := hk
    refine h.update ⟨hbody, hfits, hk⟩ fun l' hl' => ?_
    rcases List.mem_cons.mp hl' with rfl | hl'
    · exact hfree
    · refine hown l' ?_
      rw [ht]
      exact hl'

end

theorem inv_run [DecidableEq ι] (hops : ∀ c ∈ ops, c.Ordered rank reentrant []) {threads : List ι}
    (hrun : Run (Step ops reentrant) (fun _ => []) threads s) : Inv rank reentrant s :=
  hrun.invariant inv_idle fun h hstep => h.step hops hstep

/-- **Ranks go up.**  Whatever a thread holds, it waits for a lock of higher rank. -/
theorem Inv.rank_lt (h : Inv rank reentrant s) {l l' : Λ} (hl : l ∈ held (s t))
    (hwanted : wanted (s t) = some l') (hl' : l' ∈ held (s u)) (hself : t = u → l' ∉ reentrant) :
    rank l < rank l' := by
  rcases (h.ordered t).fits hwanted l hl with hlt | ⟨rfl, hre⟩
  · exact hlt
  · -- the thread would wait for itself
    exact absurd hre (hself (h.exclusive t u l hl hl'))

/-- No lock waits for itself. -/
theorem Inv.locks_acyclic (h : Inv rank reentrant s) (l : Λ) :
    ¬ Relation.TransGen (WaitsFor reentrant s) l l := by
  have hedge : ∀ {l l'}, WaitsFor reentrant s l l' → rank l < rank l' := by
    rintro l l' ⟨t, u, hl, hwanted, hl', hself⟩
    exact h.rank_lt hl hwanted hl' hself
  have hpath : ∀ {l'}, Relation.TransGen (WaitsFor reentrant s) l l' → rank l < rank l' := by
    intro l' hpath
    induction hpath with
    | single hl => exact hedge hl
    | tail _ hl ih => exact lt_trans ih (hedge hl)
  exact fun hcycle => lt_irrefl _ (hpath hcycle)

/-- Along a chain of waits, what is wanted goes up. -/
theorem Inv.rank_lt_of_chain (h : Inv rank reentrant s) {l l' : Λ} (hl : wanted (s t) = some l)
    (hchain : Relation.TransGen (Blocks reentrant s) t u) (hl' : wanted (s u) = some l') {v : ι}
    (hv : l' ∈ held (s v)) (hself : u = v → l' ∉ reentrant) : rank l < rank l' := by
  induction hchain generalizing l' v with
  | single hblocks =>
    obtain ⟨l₀, hl₀, hheld, -⟩ := hblocks
    obtain rfl := Option.some.inj (hl.symm.trans hl₀)
    exact h.rank_lt hheld hl' hv hself
  | tail _ hblocks ih =>
    obtain ⟨l₀, hl₀, hheld, hself₀⟩ := hblocks
    exact lt_trans (ih hl₀ hheld hself₀) (h.rank_lt hheld hl' hv hself)

/-- No thread waits for itself. -/
theorem Inv.threads_acyclic (h : Inv rank reentrant s) (t : ι) :
    ¬ Relation.TransGen (Blocks reentrant s) t t := by
  intro hcycle
  obtain ⟨u, l, hl, hheld, hself⟩ : ∃ u, Blocks reentrant s t u := by
    cases hcycle using Relation.TransGen.head_induction_on with
    | single hblocks => exact ⟨_, hblocks⟩
    | head hblocks _ => exact ⟨_, hblocks⟩
  exact lt_irrefl _ (h.rank_lt_of_chain hl hcycle hl hheld hself)

/-- A thread that has something to do can go on, or another one holds the lock it wants. -/
theorem Inv.step_or_blocked [DecidableEq ι] (h : Inv rank reentrant s) (ops : Set (Code Λ))
    (ht : s t ≠ []) : (∃ s', Step ops reentrant s t s') ∨
      ∃ l u, wanted (s t) = some l ∧ l ∈ held (s u) ∧ u ≠ t := by
  have hgo : ∀ {k}, Local (s t) k → ∃ s', Step ops reentrant s t s' := fun hk => ⟨_, .go hk⟩
  cases hs : s t with
  | nil => exact absurd hs ht
  | cons item k =>
    rw [hs] at hgo
    cases item with
    | release l => exact Or.inl (hgo (.release .refl))
    | run c =>
      cases c with
      | skip => exact Or.inl (hgo (.leave rfl .refl))
      | seq first next => exact Or.inl (hgo .seq)
      | choice left right => exact Or.inl (hgo .left)
      | any f => exact Or.inl (hgo (.any 0))
      | star body => exact Or.inl (hgo (.leave rfl .refl))
      | within l body =>
        by_cases hfree : ∀ u, u ≠ t → l ∉ held (s u)
        · refine Or.inl ⟨_, .acquire hs hfree fun hown => ?_⟩
          -- what it holds already it may take again
          have hwanted : wanted (s t) = some l := by rw [hs]; rfl
          rcases (h.ordered t).fits hwanted l hown with hlt | ⟨-, hre⟩
          · exact absurd hlt (lt_irrefl _)
          · exact hre
        · simp only [not_forall, not_not] at hfree
          obtain ⟨u, hu, hheld⟩ := hfree
          exact Or.inr ⟨l, u, rfl, hheld, hu⟩

/-- **Progress.**  A thread that has something to do can go on, or waits in the end for one
that can. -/
theorem Inv.progress [DecidableEq ι] (h : Inv rank reentrant s) (ops : Set (Code Λ)) {n : ℕ}
    (hbound : ∀ l, rank l ≤ n) (ht : s t ≠ []) :
    ∃ u, Relation.ReflTransGen (Blocks reentrant s) t u ∧ ∃ s', Step ops reentrant s u s' := by
  -- by induction on the ranks above the one that is wanted
  have hchain : ∀ m t l u, wanted (s t) = some l → l ∈ held (s u) → u ≠ t → n < rank l + m →
      ∃ v, Relation.ReflTransGen (Blocks reentrant s) t v ∧ ∃ s', Step ops reentrant s v s' := by
    intro m
    induction m with
    | zero =>
      intro t l u _ _ _ hlt
      exact absurd (hbound l) (Nat.not_le.mpr hlt)
    | succ m ih =>
      intro t l u hl hheld hne hlt
      have hblocks : Blocks reentrant s t u := ⟨l, hl, hheld, fun heq => absurd heq.symm hne⟩
      have hu : s u ≠ [] := by
        intro hnil
        rw [hnil] at hheld
        exact nomatch hheld
      rcases h.step_or_blocked ops hu with hstep | ⟨l', v, hl', hheld', hne'⟩
      · exact ⟨u, .single hblocks, hstep⟩
      · have hup := h.rank_lt hheld hl' hheld' fun heq => absurd heq.symm hne'
        obtain ⟨w, hpath, hstep⟩ := ih u l' v hl' hheld' hne' (by omega)
        exact ⟨w, .head hblocks hpath, hstep⟩
  rcases h.step_or_blocked ops ht with hstep | ⟨l, u, hl, hheld, hne⟩
  · exact ⟨t, .refl, hstep⟩
  · exact hchain (n + 1) t l u hl hheld hne (by omega)

end LockOrder
