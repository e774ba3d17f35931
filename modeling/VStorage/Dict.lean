/-
Dictionaries that remember the order of insertion.

A `Dict` is a list of items no two of which have the same key.  Setting a key that is
there replaces its value where it stands, and setting a new one appends it.  What a
dictionary is as a finite map is `get?`, and every operation is known by what it does
to `get?` (`get?_set`, `get?_erase`, `get?_map`).
-/
import Mathlib

structure Dict (κ α : Type*) where
  items : List (κ × α)
  nodup : (items.map Prod.fst).Nodup

namespace Dict

variable {κ α β : Type*}

def empty : Dict κ α := ⟨[], List.nodup_nil⟩

def keys (d : Dict κ α) : List κ := d.items.map Prod.fst

/-- Apply a function to every value. -/
def map (f : κ → α → β) (d : Dict κ α) : Dict κ β where
  items := d.items.map fun item => (item.1, f item.1 item.2)
  nodup := by
    rw [List.map_map]
    exact d.nodup

@[simp] theorem keys_map (f : κ → α → β) (d : Dict κ α) : (d.map f).keys = d.keys := by
  rw [keys, map, List.map_map]
  rfl

variable [DecidableEq κ]

/-- `d.get(k)`. -/
def get? (d : Dict κ α) (k : κ) : Option α := d.items.lookup k

theorem get?_eq_none {d : Dict κ α} {k : κ} : d.get? k = none ↔ k ∉ d.keys := by
  rw [get?, List.lookup_eq_none_iff, keys, List.mem_map]
  constructor
  · rintro h ⟨item, hmem, rfl⟩
    exact bne_iff_ne.mp (h item hmem) rfl
  · intro h item hmem
    exact bne_iff_ne.mpr fun hk => h ⟨item, hmem, hk.symm⟩

theorem get?_eq_some {d : Dict κ α} {k : κ} {a : α} : d.get? k = some a ↔ (k, a) ∈ d.items := by
  obtain ⟨items, hnodup⟩ := d
  show items.lookup k = some a ↔ (k, a) ∈ items
  induction items with
  | nil => simp
  | cons item items ih =>
    obtain ⟨k', a'⟩ := item
    obtain ⟨hnot, hnodup⟩ := List.nodup_cons.mp hnodup
    rw [List.lookup_cons, List.mem_cons]
    by_cases hk : k = k'
    · subst hk
      rw [beq_self_eq_true]
      constructor
      · intro h
        obtain rfl := Option.some.inj h
        exact Or.inl rfl
      · rintro (h | h)
        · rw [(Prod.mk.inj h).2]
        · exact absurd (List.mem_map.mpr ⟨_, h, rfl⟩) hnot
    · rw [beq_false_of_ne hk]
      refine (ih hnodup).trans ⟨Or.inr, fun h => h.resolve_left fun heq => hk (Prod.mk.inj heq).1⟩

theorem mem_keys {d : Dict κ α} {k : κ} : k ∈ d.keys ↔ ∃ a, d.get? k = some a := by
  rw [← not_iff_not, ← get?_eq_none, Option.eq_none_iff_forall_ne_some]
  exact not_exists.symm

theorem get?_map (f : κ → α → β) (d : Dict κ α) (k : κ) :
    (d.map f).get? k = (d.get? k).map (f k) := by
  obtain ⟨items, hnodup⟩ := d
  show (items.map fun item => (item.1, f item.1 item.2)).lookup k
    = (items.lookup k).map (f k)
  clear hnodup
  induction items with
  | nil => rfl
  | cons item items ih =>
    rw [List.map_cons, List.lookup_cons, List.lookup_cons]
    by_cases hk : k = item.1
    · rw [hk, beq_self_eq_true]
      rfl
    · rw [beq_false_of_ne hk]
      exact ih

/-- `d[k] = a`. -/
def set (d : Dict κ α) (k : κ) (a : α) : Dict κ α :=
  if h : k ∈ d.keys then d.map fun k' a' => if k' = k then a else a'
  else
    { items := d.items ++ [(k, a)]
      nodup := by
        rw [List.map_append, List.nodup_append]
        refine ⟨d.nodup, List.nodup_singleton k, fun k' hk' k'' hk'' heq => ?_⟩
        obtain rfl : k'' = k := List.mem_singleton.mp hk''
        exact h (heq ▸ hk') }

theorem items_set_of_notMem {d : Dict κ α} {k : κ} (h : k ∉ d.keys) (a : α) :
    (d.set k a).items = d.items ++ [(k, a)] := by
  rw [set, dif_neg h]

theorem get?_set (d : Dict κ α) (k k' : κ) (a : α) :
    (d.set k a).get? k' = if k' = k then some a else d.get? k' := by
  rw [set]
  split
  · rename_i h
    rw [get?_map]
    by_cases hk : k' = k
    · obtain ⟨b, hb⟩ := mem_keys.mp h
      rw [if_pos hk, hk, hb, Option.map_some, if_pos rfl]
    · rw [if_neg hk]
      cases d.get? k' with
      | none => rfl
      | some b => rw [Option.map_some, if_neg hk]
  · rename_i h
    rw [get?, List.lookup_append, List.lookup_cons, List.lookup_nil]
    by_cases hk : k' = k
    · subst hk
      have hnone : d.items.lookup k' = none := get?_eq_none.mpr h
      rw [hnone, if_pos rfl, beq_self_eq_true]
      rfl
    · rw [if_neg hk, beq_false_of_ne hk]
      exact Option.or_none

/-- `del d[k]`. -/
def erase (d : Dict κ α) (k : κ) : Dict κ α where
  items := d.items.filter fun item => item.1 ≠ k
  nodup := (List.filter_sublist.map Prod.fst).nodup d.nodup

theorem items_erase (d : Dict κ α) (k : κ) :
    (d.erase k).items = d.items.filter fun item => item.1 ≠ k := rfl

theorem get?_erase (d : Dict κ α) (k k' : κ) :
    (d.erase k).get? k' = if k' = k then none else d.get? k' := by
  ext a
  rw [get?_eq_some, erase, List.mem_filter]
  by_cases hk : k' = k
  · rw [if_pos hk]
    simp [hk]
  · rw [if_neg hk, get?_eq_some]
    simp [hk]

@[simp] theorem get?_empty (k : κ) : (empty : Dict κ α).get? k = none := rfl

end Dict
