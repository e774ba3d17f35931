/-
Strings built from secrets by a free one-way function.

A string is a list of symbols: a secret, the hash of a string, or a string sealed under
another.  `Derives K w` says that whoever has the strings in `K` can make `w`, by cutting and
joining strings, hashing, sealing, and opening what they have the key of.

* `Derives.known`: every symbol of a derived string has been laid open by `K`, or put
  together from symbols that have.
* `Derives.exposed_hash`: so a hash over a secret that `K` does not lay open is itself in
  what `K` lays open.
* `Derives.built`: symbols that hold all of `K`, and the plaintext of each of their seals whose
  key can be put together from them, are all that derived strings are put together from.
-/
import Mathlib

namespace Symbolic

/-- A symbol over the secrets `α`. -/
inductive Sym (α : Type*)
  | atom (a : α)
  | hash (w : List (Sym α))
  | sealed (key : List (Sym α)) (nonce : α) (plain : List (Sym α))

abbrev Word (α : Type*) := List (Sym α)

section Derivation

variable {α : Type*}

/-- What can be made from the strings in `K`. -/
inductive Derives (K : Set (Word α)) : Word α → Prop
  | member {w : Word α} : w ∈ K → Derives K w
  | append {u v : Word α} : Derives K u → Derives K v → Derives K (u ++ v)
  | left {u v : Word α} : Derives K (u ++ v) → Derives K u
  | right {u v : Word α} : Derives K (u ++ v) → Derives K v
  | hash {w : Word α} : Derives K w → Derives K [.hash w]
  | sealed {key plain : Word α} (nonce : α) : Derives K key → Derives K plain →
      Derives K [.sealed key nonce plain]
  | opened {key plain : Word α} {nonce : α} : Derives K [.sealed key nonce plain] →
      Derives K key → Derives K plain

/-- The symbols that the strings in `K` lay open, were all of their seals broken. -/
inductive Exposed (K : Set (Word α)) : Sym α → Prop
  | member {w : Word α} {s : Sym α} : w ∈ K → s ∈ w → Exposed K s
  | opened {key plain : Word α} {nonce : α} {s : Sym α} :
      Exposed K (.sealed key nonce plain) → s ∈ plain → Exposed K s

/-- The symbols that are laid open or put together from such. -/
inductive Known (K : Set (Word α)) : Sym α → Prop
  | exposed {s : Sym α} : Exposed K s → Known K s
  | hash {w : Word α} : (∀ s ∈ w, Known K s) → Known K (.hash w)
  | sealed {key plain : Word α} {nonce : α} : (∀ s ∈ plain, Known K s) →
      Known K (.sealed key nonce plain)

variable {K : Set (Word α)} {w : Word α}

/-- **Derivations.**  They lay nothing open. -/
theorem Derives.known (h : Derives K w) : ∀ s ∈ w, Known K s := by
  induction h with
  | member hw => exact fun s hs => .exposed (.member hw hs)
  | append _ _ ihu ihv => exact fun s hs => (List.mem_append.mp hs).elim (ihu s) (ihv s)
  | left _ ih => exact fun s hs => ih s (List.mem_append_left _ hs)
  | right _ ih => exact fun s hs => ih s (List.mem_append_right _ hs)
  | hash _ ih =>
    intro s hs
    obtain rfl := List.mem_singleton.mp hs
    exact .hash ih
  | sealed _ _ _ _ ih =>
    intro s hs
    obtain rfl := List.mem_singleton.mp hs
    exact .sealed ih
  | opened _ _ ih _ =>
    intro s hs
    cases ih _ (List.mem_singleton.mpr rfl) with
    | exposed hexposed => exact .exposed (.opened hexposed hs)
    | sealed hplain => exact hplain s hs

theorem Known.atom {a : α} (h : Known K (.atom a)) : Exposed K (.atom a) := by
  cases h with
  | exposed h => exact h

/-- A hash over a secret that is kept has not been made, but seen. -/
theorem Derives.exposed_hash (h : Derives K [.hash w]) {a : α} (ha : .atom a ∈ w)
    (hkept : ¬ Exposed K (.atom a)) : Exposed K (.hash w) := by
  cases h.known _ (List.mem_singleton.mpr rfl) with
  | exposed h => exact h
  | hash h => exact absurd (h _ ha).atom hkept

/-- The symbols that can be put together from those in `T`, with keys one has for the seals. -/
inductive Built (T : Sym α → Prop) : Sym α → Prop
  | base {s : Sym α} : T s → Built T s
  | hash {w : Word α} : (∀ s ∈ w, Built T s) → Built T (.hash w)
  | sealed {key plain : Word α} {nonce : α} : (∀ s ∈ key, Built T s) →
      (∀ s ∈ plain, Built T s) → Built T (.sealed key nonce plain)

/-- **What keys open.**  Unlike `known`, this breaks no seal without its key. -/
theorem Derives.built {T : Sym α → Prop} (hK : ∀ w ∈ K, ∀ s ∈ w, T s)
    (hopen : ∀ {key plain : Word α} {nonce : α}, T (.sealed key nonce plain) →
      (∀ s ∈ key, Built T s) → ∀ s ∈ plain, Built T s)
    (h : Derives K w) : ∀ s ∈ w, Built T s := by
  induction h with
  | member hw => exact fun s hs => .base (hK _ hw s hs)
  | append _ _ ihu ihv => exact fun s hs => (List.mem_append.mp hs).elim (ihu s) (ihv s)
  | left _ ih => exact fun s hs => ih s (List.mem_append_left _ hs)
  | right _ ih => exact fun s hs => ih s (List.mem_append_right _ hs)
  | hash _ ih =>
    intro s hs
    obtain rfl := List.mem_singleton.mp hs
    exact .hash ih
  | sealed _ _ _ ihkey ihplain =>
    intro s hs
    obtain rfl := List.mem_singleton.mp hs
    exact .sealed ihkey ihplain
  | opened _ _ ihsealed ihkey =>
    cases ihsealed _ (List.mem_singleton.mpr rfl) with
    | base hbase => exact hopen hbase ihkey
    | sealed _ hplain => exact hplain

end Derivation

/-! ### Values -/

section Values

variable {α β : Type*} (secret : α → List β) (hash : List β → List β)
  (cipher : List β → List β → List β → List β)

mutual

/-- What a symbol stands for, given its secrets and the functions. -/
def Sym.eval : Sym α → List β
  | .atom a => secret a
  | .hash w => hash (evalWord w)
  | .sealed key nonce plain => cipher (evalWord key) (secret nonce) (evalWord plain)

def evalWord : Word α → List β
  | [] => []
  | s :: w => s.eval ++ evalWord w

end

theorem evalWord_append (u v : Word α) :
    evalWord secret hash cipher (u ++ v)
      = evalWord secret hash cipher u ++ evalWord secret hash cipher v := by
  induction u with
  | nil => rfl
  | cons s u ih => rw [List.cons_append, evalWord, ih, evalWord, List.append_assoc]

end Values

end Symbolic
