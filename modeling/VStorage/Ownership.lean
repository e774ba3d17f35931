/-
Slots that own resources.

A slot refers to a name or to none, and a resource goes by a name.  Whoever changes slots and
resources separately can lose some: what is live and referred to by no slot is an orphan.

* `Owned.exact_iff`: the live resources are those that are referred to exactly when there
  are no orphans;
* `Owned.start`: resources that nobody refers to are orphans from the start;
* `Owned.rewrite`: slots that get new resources, or none, orphan what they referred to;
* `Owned.replace`: a slot whose old name is given up at once orphans nothing.
-/
import Mathlib

namespace Ownership

variable {ι ν ρ : Type*} (name : ρ → ν)

/-- No two slots refer to one name, and what is referred to is live. -/
structure Owned (ref : ι → Option ν) (live : Set ρ) : Prop where
  distinct : ∀ i j n, ref i = some n → ref j = some n → i = j
  live : ∀ i r, ref i = some (name r) → r ∈ live

/-- What is live and referred to by no slot. -/
def Orphan (ref : ι → Option ν) (live : Set ρ) (r : ρ) : Prop :=
  r ∈ live ∧ ∀ i, ref i ≠ some (name r)

/-- What is live is what is referred to. -/
def Exact (ref : ι → Option ν) (live : Set ρ) : Prop :=
  ∀ r, r ∈ live ↔ ∃ i, ref i = some (name r)

variable {name} {ref ref' : ι → Option ν} {live live' : Set ρ}

theorem Owned.exact_iff (h : Owned name ref live) :
    Exact name ref live ↔ ∀ r, ¬ Orphan name ref live r := by
  constructor
  · rintro hexact r ⟨hr, hnone⟩
    obtain ⟨i, hi⟩ := (hexact r).mp hr
    exact hnone i hi
  · intro hnone r
    refine ⟨fun hr => ?_, fun ⟨i, hi⟩ => h.live i r hi⟩
    by_contra hi
    exact hnone r ⟨hr, not_exists.mp hi⟩

/-- **Starting.**  What starts without a slot is an orphan, and nothing else becomes one. -/
theorem Owned.start (h : Owned name ref live) {new : Set ρ} (hfresh : ∀ r ∈ new, r ∉ live) :
    Owned name ref (live ∪ new) ∧
      ∀ r, Orphan name ref (live ∪ new) r ↔ Orphan name ref live r ∨ r ∈ new := by
  refine ⟨⟨h.distinct, fun i r hi => Or.inl (h.live i r hi)⟩, fun r => ⟨?_, ?_⟩⟩
  · rintro ⟨hr, hnone⟩
    exact hr.imp (fun hr => ⟨hr, hnone⟩) id
  · rintro (⟨hr, hnone⟩ | hr)
    · exact ⟨Or.inl hr, hnone⟩
    · exact ⟨Or.inr hr, fun i hi => hfresh r hr (h.live i r hi)⟩

/-- **Writing slots.**  Slots in `S` are given names whose resources start now, or none.
Whatever they referred to is an orphan then, and nothing else becomes one. -/
theorem Owned.rewrite (hname : Function.Surjective name) (h : Owned name ref live) {S : Set ι}
    (hout : ∀ i, i ∉ S → ref' i = ref i)
    (hfresh : ∀ i ∈ S, ∀ r, ref' i = some (name r) → r ∉ live)
    (hinj : ∀ i ∈ S, ∀ j ∈ S, ∀ n, ref' i = some n → ref' j = some n → i = j)
    (hlive : ∀ r, r ∈ live' ↔ r ∈ live ∨ ∃ i ∈ S, ref' i = some (name r)) :
    Owned name ref' live' ∧ ∀ r, Orphan name ref' live' r ↔
      Orphan name ref live r ∨ ∃ i ∈ S, ref i = some (name r) := by
  -- a new name is not an old one
  have hnew : ∀ i ∈ S, ∀ j n, ref' i = some n → ref j ≠ some n := by
    intro i hi j n hin hjn
    obtain ⟨r, rfl⟩ := hname n
    exact hfresh i hi r hin (h.live j r hjn)
  refine ⟨⟨fun i j n hi hj => ?_, fun i r hi => ?_⟩, fun r => ⟨fun ⟨hr, hnone⟩ => ?_, ?_⟩⟩
  · by_cases hiS : i ∈ S
    · by_cases hjS : j ∈ S
      · exact hinj i hiS j hjS n hi hj
      · exact absurd ((hout j hjS).symm.trans hj) (hnew i hiS j n hi)
    · by_cases hjS : j ∈ S
      · exact absurd ((hout i hiS).symm.trans hi) (hnew j hjS i n hj)
      · exact h.distinct i j n ((hout i hiS).symm.trans hi) ((hout j hjS).symm.trans hj)
  · by_cases hiS : i ∈ S
    · exact (hlive r).mpr (Or.inr ⟨i, hiS, hi⟩)
    · exact (hlive r).mpr (Or.inl (h.live i r ((hout i hiS).symm.trans hi)))
  · rcases (hlive r).mp hr with hold | ⟨i, -, hi⟩
    · by_cases hS : ∃ i ∈ S, ref i = some (name r)
      · exact Or.inr hS
      · refine Or.inl ⟨hold, fun i hi => ?_⟩
        by_cases hiS : i ∈ S
        · exact hS ⟨i, hiS, hi⟩
        · exact hnone i ((hout i hiS).trans hi)
    · exact absurd hi (hnone i)
  · rintro (⟨hr, hnone⟩ | ⟨i, hiS, hi⟩)
    · refine ⟨(hlive r).mpr (Or.inl hr), fun j hj => ?_⟩
      by_cases hjS : j ∈ S
      · exact hfresh j hjS r hj hr
      · exact hnone j ((hout j hjS).symm.trans hj)
    · have hr := h.live i r hi
      refine ⟨(hlive r).mpr (Or.inl hr), fun j hj => ?_⟩
      by_cases hjS : j ∈ S
      · exact hfresh j hjS r hj hr
      · -- the slot itself is in `S`
        have hji := h.distinct j i _ ((hout j hjS).symm.trans hj) hi
        exact hjS (hji ▸ hiS)

/-- **Giving up a name.**  Its resources go, and they were orphans. -/
theorem Owned.collapse (h : Owned name ref live) {n : ν} (hnone : ∀ i, ref i ≠ some n)
    (hlive : ∀ r, r ∈ live' ↔ r ∈ live ∧ name r ≠ n) :
    Owned name ref live' ∧
      ∀ r, Orphan name ref live' r ↔ Orphan name ref live r ∧ name r ≠ n := by
  refine ⟨⟨h.distinct, fun i r hi => ?_⟩, fun r => ?_⟩
  · refine (hlive r).mpr ⟨h.live i r hi, ?_⟩
    rintro rfl
    exact hnone i hi
  · constructor
    · rintro ⟨hr, hi⟩
      exact ⟨⟨((hlive r).mp hr).1, hi⟩, ((hlive r).mp hr).2⟩
    · rintro ⟨⟨hr, hi⟩, hne⟩
      exact ⟨(hlive r).mpr ⟨hr, hne⟩, hi⟩

/-- **Replacing.**  A slot gets a new name, or none, and what it referred to goes. -/
theorem Owned.replace (hname : Function.Surjective name) (h : Owned name ref live) {i : ι} {n : ν}
    (hi : ref i = some n) (hout : ∀ j, j ≠ i → ref' j = ref j)
    (hfresh : ∀ r, ref' i = some (name r) → r ∉ live)
    (hlive : ∀ r, r ∈ live' ↔ (r ∈ live ∨ ref' i = some (name r)) ∧ name r ≠ n) :
    Owned name ref' live' ∧ ∀ r, Orphan name ref' live' r ↔ Orphan name ref live r := by
  obtain ⟨howned, horphan⟩ := @Owned.rewrite ι ν ρ name ref ref' live
    (live ∪ {r | ref' i = some (name r)}) hname h {i} hout
    (fun j hj r hr => hfresh r (by rw [← hj]; exact hr))
    (fun j hj k hk _ _ _ => hj.trans hk.symm) fun r => by simp
  -- the old name is referred to by no slot any more
  have hnone : ∀ j, ref' j ≠ some n := by
    intro j hj
    by_cases hji : j = i
    · obtain ⟨r, rfl⟩ := hname n
      exact hfresh r (hji ▸ hj) (h.live i r hi)
    · exact hji (h.distinct j i n ((hout j hji).symm.trans hj) hi)
  obtain ⟨hcollapsed, hgone⟩ := howned.collapse hnone hlive
  refine ⟨hcollapsed, fun r => ((hgone r).trans (and_congr_left' (horphan r))).trans ?_⟩
  constructor
  · rintro ⟨hr | ⟨j, hj, hjr⟩, hne⟩
    · exact hr
    · obtain rfl : j = i := hj
      exact absurd (Option.some.inj (hjr.symm.trans hi)) hne
  · intro hr
    refine ⟨Or.inl hr, ?_⟩
    rintro rfl
    exact hr.2 i hi

end Ownership
