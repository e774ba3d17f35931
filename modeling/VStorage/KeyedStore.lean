/-
Stores of values under names.

What a store is for is told by a dictionary, and what is done to it by a list of effects: a
value is put under a name, a name is dropped, or nothing changes.  A system is a store when a
relation between dictionaries and its states goes along with every step (`Refines`).

* `get?_stored`: under a name is the value that was put there last, unless the name has been
  dropped since;
* `Refines.run`: what holds between the two at the start holds after every run;
* `stored_eq_of_changes`: what has been done to two systems makes the same store of both, when it
  is the same but for the effects that change nothing.
-/
import Mathlib
import VStorage.Dict
import VStorage.Runs

namespace KeyedStore

variable {ι α β : Type*}

/-! ### Effects -/

inductive Effect (ι α : Type*)
  | keep
  | put (i : ι) (a : α)
  | drop (i : ι)

/-- The name that an effect is about. -/
def Effect.name? : Effect ι α → Option ι
  | .keep => none
  | .put i _ => some i
  | .drop i => some i

variable [DecidableEq ι]

def Effect.apply : Effect ι α → Dict ι α → Dict ι α
  | .keep, d => d
  | .put i a, d => d.set i a
  | .drop i, d => d.erase i

/-- What is stored after some effects. -/
def stored (effects : List (Effect ι α)) : Dict ι α :=
  effects.foldl (fun d effect => effect.apply d) .empty

theorem stored_concat (effects : List (Effect ι α)) (effect : Effect ι α) :
    stored (effects ++ [effect]) = effect.apply (stored effects) := by
  rw [stored, List.foldl_append]
  rfl

/-- Only the name that an effect is about is changed. -/
theorem Effect.get?_apply {effect : Effect ι α} {i : ι} (h : effect.name? ≠ some i)
    (d : Dict ι α) : (effect.apply d).get? i = d.get? i := by
  have hne : ∀ j, effect.name? = some j → i ≠ j := fun j hj heq => h (hj.trans (by rw [heq]))
  cases effect with
  | keep => rfl
  | put j a => exact (Dict.get?_set ..).trans (if_neg (hne j rfl))
  | drop j => exact (Dict.get?_erase ..).trans (if_neg (hne j rfl))

/-- **What is stored.**  It has been put there, and nothing has happened to the name since. -/
theorem get?_stored {effects : List (Effect ι α)} {i : ι} {a : α} :
    (stored effects).get? i = some a ↔
      ∃ pre post, effects = pre ++ .put i a :: post ∧ ∀ effect ∈ post, effect.name? ≠ some i := by
  induction effects using List.reverseRecOn with
  | nil => simp [stored]
  | append_singleton effects last ih =>
    rw [stored_concat]
    by_cases hlast : last.name? = some i
    · constructor
      · intro h
        cases last with
        | keep => cases hlast
        | put j b =>
          obtain rfl := Option.some.inj hlast
          obtain rfl := Option.some.inj (((Dict.get?_set ..).trans (if_pos rfl)).symm.trans h)
          exact ⟨effects, [], rfl, List.forall_mem_nil _⟩
        | drop j =>
          obtain rfl := Option.some.inj hlast
          have hnone : ((stored effects).erase j).get? j = none :=
            (Dict.get?_erase ..).trans (if_pos rfl)
          exact absurd (hnone.symm.trans h) (Option.some_ne_none a).symm
      · rintro ⟨pre, post, hsplit, hpost⟩
        rcases List.eq_nil_or_concat post with rfl | ⟨post, effect, rfl⟩
        · obtain ⟨-, hput⟩ := List.append_inj' hsplit rfl
          obtain rfl := List.singleton_inj.mp hput
          exact (Dict.get?_set ..).trans (if_pos rfl)
        · -- the last effect is about the name, and it is in `post`
          rw [List.concat_eq_append, ← List.cons_append, ← List.append_assoc] at hsplit
          obtain ⟨-, heq⟩ := List.append_inj' hsplit rfl
          obtain rfl := List.singleton_inj.mp heq
          exact absurd hlast (hpost last (by simp))
    · rw [last.get?_apply hlast, ih]
      constructor
      · rintro ⟨pre, post, rfl, hpost⟩
        refine ⟨pre, post ++ [last], by simp, fun effect heffect => ?_⟩
        rcases List.mem_append.mp heffect with heffect | heffect
        · exact hpost effect heffect
        · rwa [List.mem_singleton.mp heffect]
      · rintro ⟨pre, post, hsplit, hpost⟩
        rcases List.eq_nil_or_concat post with rfl | ⟨post, effect, rfl⟩
        · obtain ⟨-, hput⟩ := List.append_inj' hsplit rfl
          exact absurd (congrArg Effect.name? (List.singleton_inj.mp hput)) hlast
        · rw [List.concat_eq_append, ← List.cons_append, ← List.append_assoc] at hsplit
          refine ⟨pre, post, (List.append_inj' hsplit rfl).1, fun effect heffect => ?_⟩
          exact hpost effect (by simp [heffect])

/-! ### Dictionaries with the same names -/

/-- The same names in the same order, and the values under them are related. -/
structure Alike (R : ι → α → β → Prop) (d : Dict ι α) (d' : Dict ι β) : Prop where
  keys : d'.keys = d.keys
  related : ∀ {i a b}, d.get? i = some a → d'.get? i = some b → R i a b

theorem keys_set (d : Dict ι α) (i : ι) (a : α) :
    (d.set i a).keys = if i ∈ d.keys then d.keys else d.keys ++ [i] := by
  by_cases h : i ∈ d.keys
  · rw [if_pos h, Dict.set, dif_pos h, Dict.keys_map]
  · rw [if_neg h, Dict.keys, Dict.items_set_of_notMem h, List.map_append]
    rfl

theorem keys_erase (d : Dict ι α) (i : ι) : (d.erase i).keys = d.keys.filter (· ≠ i) := by
  rw [Dict.keys, Dict.items_erase, Dict.keys, List.filter_map]
  rfl

namespace Alike

variable {R R' : ι → α → β → Prop} {d : Dict ι α} {d' : Dict ι β}

theorem empty : Alike R (.empty : Dict ι α) .empty := ⟨rfl, fun h => nomatch h⟩

theorem mono (h : Alike R d d') (hle : ∀ {i a b}, R i a b → R' i a b) : Alike R' d d' :=
  ⟨h.keys, fun ha hb => hle (h.related ha hb)⟩

theorem none_iff (h : Alike R d d') (i : ι) : d'.get? i = none ↔ d.get? i = none := by
  rw [Dict.get?_eq_none, Dict.get?_eq_none, h.keys]

/-- A name is in both, or in neither. -/
theorem cases (h : Alike R d d') (i : ι) :
    (d.get? i = none ∧ d'.get? i = none) ∨
      ∃ a b, d.get? i = some a ∧ d'.get? i = some b ∧ R i a b := by
  cases hd : d.get? i with
  | none => exact Or.inl ⟨rfl, (h.none_iff i).mpr hd⟩
  | some a =>
    cases hd' : d'.get? i with
    | none => exact nomatch hd.symm.trans ((h.none_iff i).mp hd')
    | some b => exact Or.inr ⟨a, b, rfl, rfl, h.related hd hd'⟩

theorem set (h : Alike R d d') {i : ι} {a : α} {b : β} (hab : R i a b) :
    Alike R (d.set i a) (d'.set i b) := by
  refine ⟨?_, fun {j a' b'} ha hb => ?_⟩
  · rw [keys_set, keys_set, h.keys]
  · rw [Dict.get?_set] at ha hb
    by_cases hj : j = i
    · rw [if_pos hj] at ha hb
      obtain rfl := Option.some.inj ha
      obtain rfl := Option.some.inj hb
      exact hj ▸ hab
    · rw [if_neg hj] at ha hb
      exact h.related ha hb

theorem erase (h : Alike R d d') (i : ι) : Alike R (d.erase i) (d'.erase i) := by
  refine ⟨by rw [keys_erase, keys_erase, h.keys], fun {j a b} ha hb => ?_⟩
  rw [Dict.get?_erase] at ha hb
  by_cases hj : j = i
  · rw [if_pos hj] at ha
    cases ha
  · rw [if_neg hj] at ha hb
    exact h.related ha hb

end Alike

/-! ### Views of values -/

/-- The same effect, on what is seen of the values. -/
def Effect.map (f : α → β) : Effect ι α → Effect ι β
  | .keep => .keep
  | .put i a => .put i (f a)
  | .drop i => .drop i

/-- What is stored of the views are the views of what is stored. -/
theorem alike_map (f : α → β) (effects : List (Effect ι α)) :
    Alike (fun _ a b => b = f a) (stored effects) (stored (effects.map (Effect.map f))) := by
  induction effects using List.reverseRecOn with
  | nil => exact Alike.empty
  | append_singleton effects last ih =>
    rw [List.map_append, List.map_singleton, stored_concat, stored_concat]
    cases last with
    | keep => exact ih
    | put i a => exact ih.set rfl
    | drop i => exact ih.erase i

/-! ### Systems that are stores -/

variable {σ ℓ : Type*}

/-- The relation `I` between dictionaries and states holds at the start, and goes along with
every step. -/
structure Refines (step : σ → ℓ → σ → Prop) (start : σ) (effect : ℓ → Effect ι α)
    (I : Dict ι α → σ → Prop) : Prop where
  start : I .empty start
  step : ∀ {d s l t}, I d s → step s l t → I ((effect l).apply d) t

/-- **Refinement.**  After every run the state is related to what is stored. -/
theorem Refines.run {step : σ → ℓ → σ → Prop} {s t : σ} {effect : ℓ → Effect ι α}
    {I : Dict ι α → σ → Prop} (h : Refines step s effect I) {labels : List ℓ}
    (hrun : Run step s labels t) : I (stored (labels.map effect)) t := by
  refine hrun.history (I := fun labels t => I (stored (labels.map effect)) t) h.start ?_
  intro labels t label u ht hstep
  rw [List.map_append, List.map_singleton, stored_concat]
  exact h.step ht hstep

omit [DecidableEq ι] in
/-- The effects that change something. -/
def changes (effects : List (Effect ι α)) : List (Effect ι α) :=
  effects.filter fun effect => effect.name?.isSome

theorem stored_changes (effects : List (Effect ι α)) :
    stored (changes effects) = stored effects := by
  induction effects using List.reverseRecOn with
  | nil => rfl
  | append_singleton effects last ih =>
    rw [changes, List.filter_append, stored_concat]
    cases last with
    | keep => exact (congrArg stored (List.append_nil _)).trans ih
    | put i a => exact (stored_concat ..).trans (congrArg _ ih)
    | drop i => exact (stored_concat ..).trans (congrArg _ ih)

/-- **Interchange.**  The same changes make the same store. -/
theorem stored_eq_of_changes {effects effects' : List (Effect ι α)}
    (h : changes effects = changes effects') : stored effects = stored effects' := by
  rw [← stored_changes, h, stored_changes]

end KeyedStore
