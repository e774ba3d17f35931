/-
JSON texts as Python's `json` module reads and writes them.

A text is a list of code points, so that it may hold what a Python string may.
`loads` is the scanner of the standard library: strict strings, the constants `NaN`
and `Infinity`, duplicate keys overwriting earlier ones, a limit on the digits of an
integer, and a limit on nesting, which is a parameter.  `dumps` is the encoder with
its default separators.

* `Scans` says that a text in front of any other is read as a given value, and is put
  together from the parts of the text (`scans_str`, `scans_int`, `scans_obj`).
* `loads_of_scans`: a text that is read loads as its value, and is rejected when
  anything but white space follows it.
* `loads_unopened`: so is a text that closes an object it has not opened.
* `loads_error`: reading raises `ValueError`, or `RecursionError` past the limit.
-/
import Mathlib
import VStorage.Py

/-- A Python string, by its code points. -/
abbrev PyStr := List ℕ

def pyStr (s : String) : PyStr := s.toList.map Char.toNat

/-- A value that `json.loads` can return. -/
inductive Json
  | null
  | bool (b : Bool)
  | int (n : ℤ)
  | float (text : PyStr)
  | str (s : PyStr)
  | arr (items : List Json)
  | obj (members : List (PyStr × Json))

namespace Json

/-! ### Reading -/

def isSpace (c : ℕ) : Bool := c = ' '.toNat ∨ c = '\t'.toNat ∨ c = '\n'.toNat ∨ c = '\r'.toNat

def skipSpace (s : PyStr) : PyStr := s.dropWhile isSpace

def isDigit (c : ℕ) : Bool := '0'.toNat ≤ c ∧ c ≤ '9'.toNat

def hexValue (c : ℕ) : Option ℕ :=
  if '0'.toNat ≤ c ∧ c ≤ '9'.toNat then some (c - '0'.toNat)
  else if 'a'.toNat ≤ c ∧ c ≤ 'f'.toNat then some (c - 'a'.toNat + 10)
  else if 'A'.toNat ≤ c ∧ c ≤ 'F'.toNat then some (c - 'A'.toNat + 10)
  else none

/-- Four hexadecimal digits. -/
def hex4 : PyStr → Option (ℕ × PyStr)
  | a :: b :: c :: d :: rest => do
    let a ← hexValue a
    let b ← hexValue b
    let c ← hexValue c
    let d ← hexValue d
    return (4096 * a + 256 * b + 16 * c + d, rest)
  | _ => none

/-- A low surrogate escape, after a high one. -/
def lowSurrogate : PyStr → Option (ℕ × PyStr)
  | a :: b :: rest =>
    if a = '\\'.toNat ∧ b = 'u'.toNat then
      match hex4 rest with
      | some (low, rest) => if 0xDC00 ≤ low ∧ low ≤ 0xDFFF then some (low, rest) else none
      | none => none
    else none
  | _ => none

/-- What follows a backslash. -/
def unescape : PyStr → Option (ℕ × PyStr)
  | [] => none
  | c :: rest =>
    if c = '"'.toNat ∨ c = '\\'.toNat ∨ c = '/'.toNat then some (c, rest)
    else if c = 'b'.toNat then some (8, rest)
    else if c = 'f'.toNat then some (12, rest)
    else if c = 'n'.toNat then some (10, rest)
    else if c = 'r'.toNat then some (13, rest)
    else if c = 't'.toNat then some (9, rest)
    else if c = 'u'.toNat then
      match hex4 rest with
      | none => none
      | some (high, rest) =>
        if 0xD800 ≤ high ∧ high ≤ 0xDBFF then
          match lowSurrogate rest with
          | some (low, rest) => some (0x10000 + (high - 0xD800) * 0x400 + (low - 0xDC00), rest)
          | none => some (high, rest)
        else some (high, rest)
    else none

/-- The rest of a string, after its opening quote.  Control characters are rejected.
The number bounds the passes of the loop. -/
def scanString : ℕ → PyStr → Except PyError (PyStr × PyStr)
  | 0, _ => .error .valueError
  | _ + 1, [] => .error .valueError
  | fuel + 1, c :: rest =>
    if c = '"'.toNat then .ok ([], rest)
    else if c = '\\'.toNat then
      match unescape rest with
      | none => .error .valueError
      | some (d, rest) => do
        let (s, rest) ← scanString fuel rest
        return (d :: s, rest)
    else if c < 32 then .error .valueError
    else do
      let (s, rest) ← scanString fuel rest
      return (c :: s, rest)

/-- `int(text)` of a run of digits. -/
def ofDigits (digits : PyStr) : ℕ := digits.foldl (fun n d => 10 * n + (d - '0'.toNat)) 0

/-- The fraction of a number, or nothing. -/
def scanFraction (s : PyStr) : PyStr × PyStr :=
  match s with
  | c :: d :: rest =>
    if c = '.'.toNat ∧ isDigit d = true then
      (c :: (d :: rest).takeWhile isDigit, (d :: rest).dropWhile isDigit)
    else ([], s)
  | _ => ([], s)

/-- The sign of an exponent, if it has one. -/
def scanSign (s : PyStr) : PyStr × PyStr :=
  match s with
  | c :: rest => if c = '-'.toNat ∨ c = '+'.toNat then ([c], rest) else ([], s)
  | [] => ([], s)

/-- The exponent of a number, or nothing. -/
def scanExponent (s : PyStr) : PyStr × PyStr :=
  match s with
  | c :: rest =>
    if c = 'e'.toNat ∨ c = 'E'.toNat then
      let (sign, digits) := scanSign rest
      if digits.takeWhile isDigit = [] then ([], s)
      else (c :: sign ++ digits.takeWhile isDigit, digits.dropWhile isDigit)
    else ([], s)
  | [] => ([], s)

/-- The whole part of a number: nothing follows a leading zero. -/
def scanWhole (s : PyStr) : PyStr × PyStr :=
  match s with
  | c :: rest =>
    if c = '0'.toNat then ([c], rest) else (s.takeWhile isDigit, s.dropWhile isDigit)
  | [] => ([], s)

/-- Longer runs of digits are not converted. -/
def maxDigits : ℕ := 4300

/-- An unsigned number, its first digit checked. -/
def scanNumber (negative : Bool) (s : PyStr) : Except PyError (Json × PyStr) :=
  let (whole, rest) := scanWhole s
  let (fraction, rest) := scanFraction rest
  let (exponent, rest) := scanExponent rest
  if fraction = [] ∧ exponent = [] then
    if whole.length > maxDigits then .error .valueError
    else .ok (.int (if negative then -(ofDigits whole : ℤ) else ofDigits whole), rest)
  else .ok (.float ((if negative then pyStr "-" else []) ++ whole ++ fraction ++ exponent), rest)

/-- The exponent of a float, from its text after the `e`. -/
def ofExponent (text : PyStr) : ℤ :=
  let (sign, digits) := scanSign text
  if sign = pyStr "-" then -(ofDigits digits : ℤ) else ofDigits digits

/-- The text is that of a float which is zero: its value is no more than half of the smallest
float, `2 ^ (-1074)`.  `NaN` and `Infinity` have no digits. -/
def floatIsZero (text : PyStr) : Bool :=
  let mantissa := text.takeWhile fun c => c ≠ 'e'.toNat ∧ c ≠ 'E'.toNat
  let places := (mantissa.dropWhile (· ≠ '.'.toNat)).length - 1
  let power := ofExponent (text.drop (mantissa.length + 1)) - places
  let digits := ofDigits (mantissa.filter isDigit)
  mantissa.any isDigit &&
    (digits = 0 || (power < 0 && digits * 2 ^ 1075 ≤ 10 ^ power.natAbs))

/-- A constant, if the text starts with it. -/
def scanConstant (name : PyStr) (v : Json) (s : PyStr) : Except PyError (Json × PyStr) :=
  if s.take name.length = name then .ok (v, s.drop name.length) else .error .valueError

/-- `d[key] = v`: a key keeps its place. -/
def setItem (members : List (PyStr × Json)) (key : PyStr) (v : Json) : List (PyStr × Json) :=
  if (members.map Prod.fst).contains key then
    members.map fun m => if m.1 = key then (key, v) else m
  else members ++ [(key, v)]

/-- The members of an object, from a key on. -/
def scanMembers (value : PyStr → Except PyError (Json × PyStr)) :
    ℕ → List (PyStr × Json) → PyStr → Except PyError (Json × PyStr)
  | 0, _, _ => .error .valueError
  | _ + 1, _, [] => .error .valueError
  | fuel + 1, members, c :: rest =>
    if c = '"'.toNat then do
      let (key, rest) ← scanString (rest.length + 1) rest
      match skipSpace rest with
      | [] => .error .valueError
      | c :: rest =>
        if c = ':'.toNat then do
          let (v, rest) ← value (skipSpace rest)
          match skipSpace rest with
          | [] => .error .valueError
          | c :: rest =>
            if c = '}'.toNat then .ok (.obj (setItem members key v), rest)
            else if c = ','.toNat then
              scanMembers value fuel (setItem members key v) (skipSpace rest)
            else .error .valueError
        else .error .valueError
    else .error .valueError

/-- An object, after its brace. -/
def scanObject (value : PyStr → Except PyError (Json × PyStr)) (s : PyStr) :
    Except PyError (Json × PyStr) :=
  match skipSpace s with
  | [] => .error .valueError
  | c :: rest =>
    if c = '}'.toNat then .ok (.obj [], rest)
    else scanMembers value (s.length + 1) [] (c :: rest)

/-- The items of an array, from a value on. -/
def scanItems (value : PyStr → Except PyError (Json × PyStr)) :
    ℕ → List Json → PyStr → Except PyError (Json × PyStr)
  | 0, _, _ => .error .valueError
  | fuel + 1, items, s => do
    let (v, rest) ← value s
    match skipSpace rest with
    | [] => .error .valueError
    | c :: rest =>
      if c = ']'.toNat then .ok (.arr (items ++ [v]), rest)
      else if c = ','.toNat then scanItems value fuel (items ++ [v]) (skipSpace rest)
      else .error .valueError

/-- An array, after its bracket. -/
def scanArray (value : PyStr → Except PyError (Json × PyStr)) (s : PyStr) :
    Except PyError (Json × PyStr) :=
  match skipSpace s with
  | [] => .error .valueError
  | c :: rest =>
    if c = ']'.toNat then .ok (.arr [], rest) else scanItems value (s.length + 1) [] (c :: rest)

/-- What follows a minus sign. -/
def scanNegative : PyStr → Except PyError (Json × PyStr)
  | [] => .error .valueError
  | c :: rest =>
    if c = 'I'.toNat then scanConstant (pyStr "Infinity") (.float (pyStr "-Infinity")) (c :: rest)
    else if isDigit c then scanNumber true (c :: rest)
    else .error .valueError

/-- `scan_once`, given what it does after an opening brace or bracket. -/
def scanOnce (object array : PyStr → Except PyError (Json × PyStr)) :
    PyStr → Except PyError (Json × PyStr)
  | [] => .error .valueError
  | c :: rest =>
    if c = '"'.toNat then do
      let (s, rest) ← scanString (rest.length + 1) rest
      return (.str s, rest)
    else if c = '{'.toNat then object rest
    else if c = '['.toNat then array rest
    else if c = 'n'.toNat then scanConstant (pyStr "null") .null (c :: rest)
    else if c = 't'.toNat then scanConstant (pyStr "true") (.bool true) (c :: rest)
    else if c = 'f'.toNat then scanConstant (pyStr "false") (.bool false) (c :: rest)
    else if c = 'N'.toNat then scanConstant (pyStr "NaN") (.float (pyStr "NaN")) (c :: rest)
    else if c = 'I'.toNat then
      scanConstant (pyStr "Infinity") (.float (pyStr "Infinity")) (c :: rest)
    else if c = '-'.toNat then scanNegative rest
    else if isDigit c then scanNumber false (c :: rest)
    else .error .valueError

/-- A value at most `depth` containers deep. -/
def scanValue : ℕ → PyStr → Except PyError (Json × PyStr)
  | 0 => scanOnce (fun _ => .error .recursionError) fun _ => .error .recursionError
  | depth + 1 => scanOnce (scanObject (scanValue depth)) (scanArray (scanValue depth))

/-- `json.loads` of a string. -/
def loads (depth : ℕ) (s : PyStr) : Except PyError Json :=
  if s.head? = some 0xFEFF then .error .valueError
  else do
    let (v, rest) ← scanValue depth (skipSpace s)
    if skipSpace rest = [] then return v else .error .valueError

/-- `d.get(key)`, for a dictionary. -/
def lookup (key : PyStr) (members : List (PyStr × Json)) : Option Json :=
  (members.find? fun m => m.1 = key).map Prod.snd

/-! ### Writing -/

/-- A number in base 10. -/
def decimal (n : ℕ) : PyStr :=
  if n = 0 then pyStr "0" else ((Nat.digits 10 n).map (· + '0'.toNat)).reverse

def hexDigit (n : ℕ) : ℕ := if n < 10 then n + '0'.toNat else n - 10 + 'a'.toNat

/-- `\uXXXX`. -/
def escapeUnit (n : ℕ) : PyStr :=
  pyStr "\\u" ++ [hexDigit (n / 4096 % 16), hexDigit (n / 256 % 16), hexDigit (n / 16 % 16),
    hexDigit (n % 16)]

/-- One character of a string, in ASCII. -/
def escapeChar (c : ℕ) : PyStr :=
  if c = '"'.toNat ∨ c = '\\'.toNat then ['\\'.toNat, c]
  else if c = 10 then pyStr "\\n"
  else if c = 13 then pyStr "\\r"
  else if c = 9 then pyStr "\\t"
  else if c = 8 then pyStr "\\b"
  else if c = 12 then pyStr "\\f"
  else if 32 ≤ c ∧ c ≤ 126 then [c]
  else if c < 0x10000 then escapeUnit c
  else escapeUnit (0xD800 + (c - 0x10000) / 0x400) ++ escapeUnit (0xDC00 + (c - 0x10000) % 0x400)

def dumpString (s : PyStr) : PyStr := '"'.toNat :: s.flatMap escapeChar ++ ['"'.toNat]

mutual

/-- `json.dumps`. -/
def dumps : Json → PyStr
  | .null => pyStr "null"
  | .bool b => if b then pyStr "true" else pyStr "false"
  | .int n => if n < 0 then pyStr "-" ++ decimal n.natAbs else decimal n.natAbs
  | .float text => text
  | .str s => dumpString s
  | .arr items => pyStr "[" ++ dumpItems items ++ pyStr "]"
  | .obj members => pyStr "\x7b" ++ dumpMembers members ++ pyStr "\x7d"

def dumpItems : List Json → PyStr
  | [] => []
  | [v] => dumps v
  | v :: w :: items => dumps v ++ pyStr ", " ++ dumpItems (w :: items)

def dumpMembers : List (PyStr × Json) → PyStr
  | [] => []
  | [(key, v)] => dumpString key ++ pyStr ": " ++ dumps v
  | (key, v) :: m :: members =>
    dumpString key ++ pyStr ": " ++ dumps v ++ pyStr ", " ++ dumpMembers (m :: members)

end

/-! ### What reading raises -/

theorem scanString_error {fuel : ℕ} {s : PyStr} {e : PyError}
    (h : scanString fuel s = .error e) : e = .valueError := by
  induction fuel generalizing s with
  | zero => exact (Except.error.inj h).symm
  | succ fuel ih =>
    cases s with
    | nil => exact (Except.error.inj h).symm
    | cons c rest =>
      rw [scanString] at h
      split at h
      · exact nomatch h
      split at h
      · split at h
        · exact (Except.error.inj h).symm
        · rcases bind_eq_error.mp h with h | ⟨a, -, h⟩
          · exact ih h
          · exact nomatch h
      split at h
      · exact (Except.error.inj h).symm
      · rcases bind_eq_error.mp h with h | ⟨a, -, h⟩
        · exact ih h
        · exact nomatch h

theorem scanConstant_error {name s : PyStr} {v : Json} {e : PyError}
    (h : scanConstant name v s = .error e) : e = .valueError := by
  unfold scanConstant at h
  split at h
  · exact nomatch h
  · exact (Except.error.inj h).symm

theorem scanNumber_error {negative : Bool} {s : PyStr} {e : PyError}
    (h : scanNumber negative s = .error e) : e = .valueError := by
  unfold scanNumber at h
  dsimp only at h
  split at h
  · split at h
    · exact (Except.error.inj h).symm
    · exact nomatch h
  · exact nomatch h

theorem scanNegative_error {s : PyStr} {e : PyError} (h : scanNegative s = .error e) :
    e = .valueError := by
  unfold scanNegative at h
  split at h
  · exact (Except.error.inj h).symm
  split at h
  · exact scanConstant_error h
  split at h
  · exact scanNumber_error h
  · exact (Except.error.inj h).symm

/-- A text is rejected, or it is nested too deep. -/
def Rejects (e : PyError) : Prop := e = .valueError ∨ e = .recursionError

section Containers

variable {value : PyStr → Except PyError (Json × PyStr)}
  (hvalue : ∀ {s : PyStr} {e : PyError}, value s = .error e → Rejects e)
include hvalue

theorem scanMembers_error {fuel : ℕ} {members : List (PyStr × Json)} {s : PyStr} {e : PyError}
    (h : scanMembers value fuel members s = .error e) : Rejects e := by
  induction fuel generalizing members s with
  | zero => exact Or.inl (Except.error.inj h).symm
  | succ fuel ih =>
    cases s with
    | nil => exact Or.inl (Except.error.inj h).symm
    | cons c rest =>
      rw [scanMembers] at h
      split at h
      · rcases bind_eq_error.mp h with h | ⟨⟨key, rest⟩, -, h⟩
        · exact Or.inl (scanString_error h)
        dsimp only at h
        split at h
        · exact Or.inl (Except.error.inj h).symm
        split at h
        · rcases bind_eq_error.mp h with h | ⟨⟨v, rest⟩, -, h⟩
          · exact hvalue h
          dsimp only at h
          split at h
          · exact Or.inl (Except.error.inj h).symm
          split at h
          · exact nomatch h
          split at h
          · exact ih h
          · exact Or.inl (Except.error.inj h).symm
        · exact Or.inl (Except.error.inj h).symm
      · exact Or.inl (Except.error.inj h).symm

theorem scanObject_error {s : PyStr} {e : PyError} (h : scanObject value s = .error e) :
    Rejects e := by
  unfold scanObject at h
  split at h
  · exact Or.inl (Except.error.inj h).symm
  split at h
  · exact nomatch h
  · exact scanMembers_error hvalue h

theorem scanItems_error {fuel : ℕ} {items : List Json} {s : PyStr} {e : PyError}
    (h : scanItems value fuel items s = .error e) : Rejects e := by
  induction fuel generalizing items s with
  | zero => exact Or.inl (Except.error.inj h).symm
  | succ fuel ih =>
    rw [scanItems] at h
    rcases bind_eq_error.mp h with h | ⟨⟨v, rest⟩, -, h⟩
    · exact hvalue h
    dsimp only at h
    split at h
    · exact Or.inl (Except.error.inj h).symm
    split at h
    · exact nomatch h
    split at h
    · exact ih h
    · exact Or.inl (Except.error.inj h).symm

theorem scanArray_error {s : PyStr} {e : PyError} (h : scanArray value s = .error e) :
    Rejects e := by
  unfold scanArray at h
  split at h
  · exact Or.inl (Except.error.inj h).symm
  split at h
  · exact nomatch h
  · exact scanItems_error hvalue h

end Containers

/-- One branch of a chain of `elif`s, or those after it. -/
theorem branch {α : Type*} {p q : Prop} [Decidable p] {x y z : α} (h : (if p then x else y) = z)
    (hyes : p → x = z → q) (hno : ¬ p → y = z → q) : q := by
  by_cases hp : p
  · exact hyes hp ((if_pos hp).symm.trans h)
  · exact hno hp ((if_neg hp).symm.trans h)

theorem scanOnce_error {object array : PyStr → Except PyError (Json × PyStr)}
    (hobject : ∀ {s : PyStr} {e : PyError}, object s = .error e → Rejects e)
    (harray : ∀ {s : PyStr} {e : PyError}, array s = .error e → Rejects e)
    {s : PyStr} {e : PyError} (h : scanOnce object array s = .error e) : Rejects e := by
  cases s with
  | nil => exact Or.inl (Except.error.inj h).symm
  | cons c rest =>
    rw [scanOnce] at h
    refine branch h (fun _ h => ?_) fun _ h => ?_
    · rcases bind_eq_error.mp h with h | ⟨a, -, h⟩
      · exact Or.inl (scanString_error h)
      · exact nomatch h
    refine branch h (fun _ h => hobject h) fun _ h => ?_
    refine branch h (fun _ h => harray h) fun _ h => ?_
    -- the constants
    iterate 5
      refine branch h (fun _ h => Or.inl (scanConstant_error h)) fun _ h => ?_
    refine branch h (fun _ h => Or.inl (scanNegative_error h)) fun _ h => ?_
    refine branch h (fun _ h => Or.inl (scanNumber_error h)) fun _ h => ?_
    exact Or.inl (Except.error.inj h).symm

theorem scanValue_error {depth : ℕ} {s : PyStr} {e : PyError}
    (h : scanValue depth s = .error e) : Rejects e := by
  induction depth generalizing s e with
  | zero =>
    exact scanOnce_error (fun h => Or.inr (Except.error.inj h).symm)
      (fun h => Or.inr (Except.error.inj h).symm) h
  | succ depth ih => exact scanOnce_error (scanObject_error ih) (scanArray_error ih) h

theorem loads_error {depth : ℕ} {s : PyStr} {e : PyError} (h : loads depth s = .error e) :
    Rejects e := by
  unfold loads at h
  split at h
  · exact Or.inl (Except.error.inj h).symm
  rcases bind_eq_error.mp h with h | ⟨⟨v, rest⟩, -, h⟩
  · exact scanValue_error h
  dsimp only at h
  split at h
  · exact nomatch h
  · exact Or.inl (Except.error.inj h).symm

/-! ### Texts that close what they have not opened -/

/-- A text that ends with a given character, cut somewhere before it. -/
theorem suffix_of_append_eq {u x p r : PyStr} {c : ℕ} (h : p ++ r = u ++ c :: x) (hc : c ∉ p) :
    ∃ t, r = t ++ c :: x := by
  induction p generalizing u with
  | nil => exact ⟨u, h⟩
  | cons a p ih =>
    cases u with
    | nil =>
      obtain ⟨rfl, -⟩ := List.cons.inj h
      exact absurd List.mem_cons_self hc
    | cons b u => exact ih (List.cons.inj h).2 fun hp => hc (List.mem_cons_of_mem _ hp)

/-- A reader that takes a prefix without a closing brace off a text. -/
def TakesNoBrace (s r : PyStr) : Prop := ∃ p, s = p ++ r ∧ '}'.toNat ∉ p

theorem TakesNoBrace.trans {s r q : PyStr} (h : TakesNoBrace s r) (h' : TakesNoBrace r q) :
    TakesNoBrace s q := by
  obtain ⟨p, rfl, hp⟩ := h
  obtain ⟨p', rfl, hp'⟩ := h'
  exact ⟨p ++ p', by rw [List.append_assoc], fun h => (List.mem_append.mp h).elim hp hp'⟩

theorem takesNoBrace_refl (s : PyStr) : TakesNoBrace s s := ⟨[], rfl, nofun⟩

theorem takesNoBrace_cons {c : ℕ} (hc : c ≠ '}'.toNat) (s : PyStr) : TakesNoBrace (c :: s) s :=
  ⟨[c], rfl, fun h => hc (List.mem_singleton.mp h).symm⟩

theorem takesNoBrace_digits (s : PyStr) : TakesNoBrace s (s.dropWhile isDigit) := by
  refine ⟨s.takeWhile isDigit, (List.takeWhile_append_dropWhile ..).symm, fun h => ?_⟩
  exact nomatch List.mem_takeWhile_imp h

theorem takesNoBrace_fraction (s : PyStr) : TakesNoBrace s (scanFraction s).2 := by
  unfold scanFraction
  split
  · split
    · rename_i h
      exact (takesNoBrace_cons (by rw [h.1]; decide) _).trans (takesNoBrace_digits _)
    · exact takesNoBrace_refl _
  · exact takesNoBrace_refl _

theorem takesNoBrace_sign (s : PyStr) : TakesNoBrace s (scanSign s).2 := by
  unfold scanSign
  split
  · split
    · rename_i h
      exact takesNoBrace_cons (by rcases h with rfl | rfl <;> decide) _
    · exact takesNoBrace_refl _
  · exact takesNoBrace_refl _

theorem takesNoBrace_exponent (s : PyStr) : TakesNoBrace s (scanExponent s).2 := by
  unfold scanExponent
  split
  · split
    · rename_i h
      dsimp only
      split
      · exact takesNoBrace_refl _
      · exact (takesNoBrace_cons (by rcases h with rfl | rfl <;> decide) _).trans
          ((takesNoBrace_sign _).trans (takesNoBrace_digits _))
    · exact takesNoBrace_refl _
  · exact takesNoBrace_refl _

theorem takesNoBrace_whole (s : PyStr) : TakesNoBrace s (scanWhole s).2 := by
  unfold scanWhole
  split
  · split
    · rename_i h
      exact takesNoBrace_cons (by rw [h]; decide) _
    · exact takesNoBrace_digits _
  · exact takesNoBrace_refl _

theorem takesNoBrace_number {negative : Bool} {s r : PyStr} {v : Json}
    (h : scanNumber negative s = .ok (v, r)) : TakesNoBrace s r := by
  have hall := (takesNoBrace_whole s).trans ((takesNoBrace_fraction _).trans
    (takesNoBrace_exponent _))
  unfold scanNumber at h
  dsimp only at h
  split at h
  · split at h
    · exact nomatch h
    · obtain ⟨-, rfl⟩ := Prod.mk.inj (Except.ok.inj h)
      exact hall
  · obtain ⟨-, rfl⟩ := Prod.mk.inj (Except.ok.inj h)
    exact hall

theorem takesNoBrace_constant {name s r : PyStr} {v w : Json} (hname : '}'.toNat ∉ name)
    (h : scanConstant name v s = .ok (w, r)) : TakesNoBrace s r := by
  unfold scanConstant at h
  split at h
  · rename_i hs
    obtain ⟨-, rfl⟩ := Prod.mk.inj (Except.ok.inj h)
    exact ⟨name, by conv_lhs => rw [← List.take_append_drop name.length s, hs], hname⟩
  · exact nomatch h

theorem takesNoBrace_negative {s r : PyStr} {v : Json} (h : scanNegative s = .ok (v, r)) :
    TakesNoBrace s r := by
  unfold scanNegative at h
  split at h
  · exact nomatch h
  · split at h
    · exact takesNoBrace_constant (by decide) h
    · split at h
      · exact takesNoBrace_number h
      · exact nomatch h

/-- A string that is closed is closed before the end of the line. -/
theorem scanString_stops {fuel : ℕ} {u x s r : PyStr} (hu : '\\'.toNat ∉ u)
    (h : scanString fuel (u ++ '}'.toNat :: '\n'.toNat :: x) = .ok (s, r)) :
    ∃ t, r = t ++ '}'.toNat :: '\n'.toNat :: x := by
  induction fuel generalizing u s r with
  | zero => exact nomatch h
  | succ fuel ih =>
    cases u with
    | nil =>
      -- the brace is taken in, and the newline is rejected
      rw [List.nil_append, scanString, if_neg (by decide), if_neg (by decide),
        if_neg (by decide)] at h
      obtain ⟨⟨s', r'⟩, h', -⟩ := bind_eq_ok.mp h
      cases fuel with
      | zero => exact nomatch h'
      | succ fuel =>
        rw [scanString, if_neg (by decide), if_neg (by decide), if_pos (by decide)] at h'
        exact nomatch h'
    | cons c u =>
      rw [List.cons_append, scanString] at h
      split at h
      · obtain ⟨-, rfl⟩ := Prod.mk.inj (Except.ok.inj h)
        exact ⟨u, rfl⟩
      · rw [if_neg fun hc => hu (by rw [hc]; exact List.mem_cons_self)] at h
        split at h
        · exact nomatch h
        · obtain ⟨⟨s', r'⟩, h', hr⟩ := bind_eq_ok.mp h
          obtain ⟨-, rfl⟩ := Prod.mk.inj (Except.ok.inj hr)
          exact ih (fun hc => hu (List.mem_cons_of_mem _ hc)) h'

theorem scanValue_eq (depth : ℕ) :
    ∃ object array, scanValue depth = scanOnce object array := by
  cases depth with
  | zero => exact ⟨_, _, rfl⟩
  | succ depth => exact ⟨_, _, rfl⟩

/-- A value other than an object or an array does not take in a closing brace. -/
theorem scanOnce_stops {object array : PyStr → Except PyError (Json × PyStr)} {u x r : PyStr}
    {v : Json} (hu : ∀ c ∈ u, c ≠ '{'.toNat ∧ c ≠ '['.toNat ∧ c ≠ '\\'.toNat)
    (h : scanOnce object array (u ++ '}'.toNat :: '\n'.toNat :: x) = .ok (v, r)) :
    ∃ t, r = t ++ '}'.toNat :: '\n'.toNat :: x := by
  have hstop : ∀ {s : PyStr}, TakesNoBrace s r → s = u ++ '}'.toNat :: '\n'.toNat :: x →
      ∃ t, r = t ++ '}'.toNat :: '\n'.toNat :: x := by
    rintro s ⟨p, rfl, hp⟩ hs
    exact suffix_of_append_eq hs hp
  cases u with
  | nil =>
    simp [scanOnce, isDigit] at h
  | cons c u =>
    obtain ⟨⟨hbrace, hbracket, -⟩, hu'⟩ := List.forall_mem_cons.mp hu
    rw [List.cons_append, scanOnce] at h
    refine branch h (fun _ h => ?_) fun _ h => ?_
    · -- a string
      obtain ⟨⟨s, r'⟩, h', hr⟩ := bind_eq_ok.mp h
      obtain ⟨-, rfl⟩ := Prod.mk.inj (Except.ok.inj hr)
      exact scanString_stops (fun hc => (hu' _ hc).2.2 rfl) h'
    rw [if_neg hbrace, if_neg hbracket] at h
    -- the constants
    refine branch h (fun _ h => hstop (takesNoBrace_constant (by decide) h) rfl) fun _ h => ?_
    refine branch h (fun _ h => hstop (takesNoBrace_constant (by decide) h) rfl) fun _ h => ?_
    refine branch h (fun _ h => hstop (takesNoBrace_constant (by decide) h) rfl) fun _ h => ?_
    refine branch h (fun _ h => hstop (takesNoBrace_constant (by decide) h) rfl) fun _ h => ?_
    refine branch h (fun _ h => hstop (takesNoBrace_constant (by decide) h) rfl) fun _ h => ?_
    refine branch h (fun hc h => ?_) fun _ h => ?_
    · exact hstop ((takesNoBrace_cons (by rw [hc]; decide) _).trans (takesNoBrace_negative h)) rfl
    refine branch h (fun _ h => hstop (takesNoBrace_number h) rfl) fun _ h => ?_
    exact nomatch h

theorem skipSpace_append (u : PyStr) {c : ℕ} (hc : isSpace c = false) (x : PyStr) :
    ∃ t, skipSpace (u ++ c :: x) = t ++ c :: x ∧ ∀ d ∈ t, d ∈ u := by
  induction u with
  | nil => exact ⟨[], by simp [skipSpace, hc], nofun⟩
  | cons d u ih =>
    rw [List.cons_append, skipSpace, List.dropWhile_cons]
    split
    · obtain ⟨t, ht, hmem⟩ := ih
      exact ⟨t, ht, fun e he => List.mem_cons_of_mem _ (hmem e he)⟩
    · exact ⟨d :: u, rfl, fun e he => he⟩

/-- **A closing brace that closes nothing.**  A text whose first line ends in one, with
no object or array opened before it, is rejected. -/
theorem loads_unopened {depth : ℕ} {u x : PyStr} {v : Json}
    (hu : ∀ c ∈ u, c ≠ '{'.toNat ∧ c ≠ '['.toNat ∧ c ≠ '\\'.toNat) :
    loads depth (u ++ '}'.toNat :: '\n'.toNat :: x) ≠ .ok v := by
  intro h
  unfold loads at h
  split at h
  · exact nomatch h
  · obtain ⟨⟨w, r⟩, hscan, hend⟩ := bind_eq_ok.mp h
    obtain ⟨t, ht, hmem⟩ := skipSpace_append u (c := '}'.toNat) rfl ('\n'.toNat :: x)
    rw [ht] at hscan
    obtain ⟨object, array, hvalue⟩ := scanValue_eq depth
    rw [hvalue] at hscan
    obtain ⟨t', rfl⟩ := scanOnce_stops (fun c hc => hu c (hmem c hc)) hscan
    obtain ⟨t'', ht'', -⟩ := skipSpace_append t' (c := '}'.toNat) rfl ('\n'.toNat :: x)
    dsimp only at hend
    rw [ht'', if_neg (by simp)] at hend
    exact nomatch hend

/-! ### Texts that are read as a value -/

/-- Nothing of `rest` can belong to a number before it. -/
def Ends (rest : PyStr) : Prop :=
  ∀ c ∈ rest.head?, isDigit c = false ∧ c ≠ '.'.toNat ∧ c ≠ 'e'.toNat ∧ c ≠ 'E'.toNat

/-- `text` is read as `v`, whatever follows it. -/
def Scans (depth : ℕ) (text : PyStr) (v : Json) : Prop :=
  ∀ rest, Ends rest → scanValue depth (text ++ rest) = .ok (v, rest)

/-- Characters that stand for themselves in a string. -/
def Plain (c : ℕ) : Prop := 32 ≤ c ∧ c ≤ 126 ∧ c ≠ '"'.toNat ∧ c ≠ '\\'.toNat

instance (c : ℕ) : Decidable (Plain c) := inferInstanceAs (Decidable (_ ∧ _))

theorem escapeChar_plain {c : ℕ} (hc : Plain c) : escapeChar c = [c] := by
  obtain ⟨h1, h2, h3, h4⟩ := hc
  rw [escapeChar, if_neg (by tauto), if_neg (by omega), if_neg (by omega), if_neg (by omega),
    if_neg (by omega), if_neg (by omega), if_pos ⟨h1, h2⟩]

theorem dumpString_plain {s : PyStr} (hs : ∀ c ∈ s, Plain c) :
    dumpString s = '"'.toNat :: s ++ ['"'.toNat] := by
  rw [dumpString]
  congr 2
  induction s with
  | nil => rfl
  | cons c s ih =>
    obtain ⟨hc, hs⟩ := List.forall_mem_cons.mp hs
    rw [List.flatMap_cons, escapeChar_plain hc, ih hs]
    rfl

theorem scanString_plain {fuel : ℕ} {s : PyStr} (hs : ∀ c ∈ s, Plain c) (hfuel : s.length < fuel)
    (rest : PyStr) : scanString fuel (s ++ '"'.toNat :: rest) = .ok (s, rest) := by
  induction s generalizing fuel with
  | nil =>
    obtain ⟨fuel, rfl⟩ := Nat.exists_eq_succ_of_ne_zero (Nat.ne_of_gt hfuel)
    rw [List.nil_append, scanString, if_pos rfl]
  | cons c s ih =>
    obtain ⟨⟨h1, h2, h3, h4⟩, hs⟩ := List.forall_mem_cons.mp hs
    rw [List.length_cons] at hfuel
    obtain ⟨fuel, rfl⟩ := Nat.exists_eq_succ_of_ne_zero (show fuel ≠ 0 by omega)
    rw [List.cons_append, scanString, if_neg h3, if_neg h4, if_neg (by omega),
      ih hs (by omega)]
    rfl

/-- The closing quote found, whatever string was dumped. -/
theorem scanString_dump {s : PyStr} (hs : ∀ c ∈ s, Plain c) (rest : PyStr) :
    ∃ text, dumpString s ++ rest = '"'.toNat :: text ∧
      scanString (text.length + 1) text = .ok (s, rest) := by
  refine ⟨s ++ '"'.toNat :: rest, by simp [dumpString_plain hs], scanString_plain hs ?_ rest⟩
  rw [List.length_append]
  omega

theorem scans_str {depth : ℕ} {s : PyStr} (hs : ∀ c ∈ s, Plain c) :
    Scans depth (dumpString s) (.str s) := by
  intro rest _
  obtain ⟨object, array, hvalue⟩ := scanValue_eq depth
  obtain ⟨text, htext, hscan⟩ := scanString_dump hs rest
  rw [hvalue, htext, scanOnce, if_pos rfl, hscan]
  rfl

theorem scans_true (depth : ℕ) : Scans depth (pyStr "true") (.bool true) := by
  intro rest _
  obtain ⟨object, array, hvalue⟩ := scanValue_eq depth
  rw [hvalue]
  rfl

/-! Numbers. -/

theorem isDigit_decimal {n c : ℕ} (h : c ∈ decimal n) : isDigit c = true := by
  unfold decimal at h
  split at h
  · obtain rfl : c = 48 := by simpa [pyStr] using h
    rfl
  · obtain ⟨d, hd, rfl⟩ := List.mem_map.mp (List.mem_reverse.mp h)
    have := Nat.digits_lt_base (by decide) hd
    simp only [isDigit, decide_eq_true_eq]
    exact ⟨Nat.le_add_left _ _, by change d + 48 ≤ 57; omega⟩

theorem ofDigits_decimal (n : ℕ) : ofDigits (decimal n) = n := by
  unfold decimal
  split
  · rename_i h
    rw [h]
    rfl
  · rw [ofDigits, List.foldl_reverse, List.foldr_map]
    conv_rhs => rw [← Nat.ofDigits_digits 10 n]
    rw [Nat.ofDigits_eq_foldr]
    congr 1
    funext d m
    simp
    omega

/-- Only zero starts with a zero. -/
theorem decimal_cons (n : ℕ) :
    decimal n = ['0'.toNat] ∨ ∃ c s, decimal n = c :: s ∧ c ≠ '0'.toNat := by
  unfold decimal
  split
  · exact Or.inl rfl
  · rename_i hn
    have hne : Nat.digits 10 n ≠ [] := Nat.digits_ne_nil_iff_ne_zero.mpr hn
    have hlast := Nat.getLast_digit_ne_zero 10 hn
    refine Or.inr ⟨(Nat.digits 10 n).getLast hne + '0'.toNat,
      ((Nat.digits 10 n).dropLast.map (· + '0'.toNat)).reverse, ?_, ?_⟩
    · conv_lhs => rw [← List.dropLast_append_getLast hne]
      rw [List.map_append, List.reverse_append]
      rfl
    · intro h
      exact hlast (Nat.add_right_cancel (h.trans (Nat.zero_add _).symm))

theorem takeWhile_digits {s rest : PyStr} (hs : ∀ c ∈ s, isDigit c = true)
    (hrest : ∀ c ∈ rest.head?, isDigit c = false) :
    (s ++ rest).takeWhile isDigit = s ∧ (s ++ rest).dropWhile isDigit = rest := by
  have hnil : rest.takeWhile isDigit = [] ∧ rest.dropWhile isDigit = rest := by
    cases rest with
    | nil => exact ⟨rfl, rfl⟩
    | cons c rest =>
      have hc := hrest c rfl
      exact ⟨by rw [List.takeWhile_cons, hc]; rfl, by rw [List.dropWhile_cons, hc]; rfl⟩
  rw [List.takeWhile_append_of_pos hs, List.dropWhile_append_of_pos hs, hnil.1, hnil.2,
    List.append_nil]
  exact ⟨rfl, rfl⟩

theorem scanWhole_decimal (n : ℕ) {rest : PyStr} (hrest : Ends rest) :
    scanWhole (decimal n ++ rest) = (decimal n, rest) := by
  obtain ⟨htake, hdrop⟩ := takeWhile_digits (fun c hc => isDigit_decimal (n := n) hc)
    fun c hc => (hrest c hc).1
  obtain h | ⟨c, s, h, hc⟩ := decimal_cons n
  · rw [h, List.cons_append, scanWhole, if_pos rfl]
    rfl
  · rw [h] at htake hdrop
    rw [h, List.cons_append, scanWhole, if_neg hc, ← List.cons_append, htake, hdrop]

theorem scanFraction_ends {rest : PyStr} (h : Ends rest) : scanFraction rest = ([], rest) := by
  unfold scanFraction
  split
  · rename_i c d rest
    rw [if_neg fun hc => (h c rfl).2.1 hc.1]
  · rfl

theorem scanExponent_ends {rest : PyStr} (h : Ends rest) : scanExponent rest = ([], rest) := by
  unfold scanExponent
  split
  · rename_i c rest
    rw [if_neg fun hc => hc.elim (h c rfl).2.2.1 (h c rfl).2.2.2]
  · rfl

theorem scanOnce_digit {object array : PyStr → Except PyError (Json × PyStr)} {c : ℕ}
    (hc : isDigit c = true) (rest : PyStr) :
    scanOnce object array (c :: rest) = scanNumber false (c :: rest) := by
  have hc' : 48 ≤ c ∧ c ≤ 57 := by simpa [isDigit] using hc
  have hne : ∀ d : ℕ, d < 48 ∨ 57 < d → c ≠ d := by omega
  rw [scanOnce, if_neg (hne _ (by decide)), if_neg (hne _ (by decide)), if_neg (hne _ (by decide)),
    if_neg (hne _ (by decide)), if_neg (hne _ (by decide)), if_neg (hne _ (by decide)),
    if_neg (hne _ (by decide)), if_neg (hne _ (by decide)), if_neg (hne _ (by decide)),
    if_pos hc]

theorem decimal_head (n : ℕ) : ∃ c s, decimal n = c :: s ∧ isDigit c = true := by
  obtain ⟨c, s, h⟩ : ∃ c s, decimal n = c :: s := by
    obtain h | ⟨c, s, h, -⟩ := decimal_cons n
    · exact ⟨_, _, h⟩
    · exact ⟨c, s, h⟩
  exact ⟨c, s, h, isDigit_decimal (n := n) (h ▸ List.mem_cons_self)⟩

/-- A run of digits is an integer, unless it is too long. -/
theorem scanValue_decimal (depth n : ℕ) {rest : PyStr} (hrest : Ends rest) :
    scanValue depth (decimal n ++ rest)
      = if (decimal n).length > maxDigits then .error .valueError else .ok (.int n, rest) := by
  obtain ⟨object, array, hvalue⟩ := scanValue_eq depth
  obtain ⟨c, s, hcs, hc⟩ := decimal_head n
  have hnumber : scanValue depth (decimal n ++ rest) = scanNumber false (decimal n ++ rest) := by
    rw [hvalue, hcs, List.cons_append, scanOnce_digit hc]
  rw [hnumber, scanNumber, scanWhole_decimal n hrest]
  dsimp only
  rw [scanFraction_ends hrest]
  dsimp only
  rw [scanExponent_ends hrest]
  dsimp only
  rw [if_pos ⟨rfl, rfl⟩, ofDigits_decimal]
  rfl

theorem scans_int {depth n : ℕ} (hn : (decimal n).length ≤ maxDigits) :
    Scans depth (decimal n) (.int n) := by
  intro rest hrest
  rw [scanValue_decimal depth n hrest, if_neg (not_lt.mpr hn)]

/-! Objects. -/

theorem scanOnce_space {object array : PyStr → Except PyError (Json × PyStr)} {c : ℕ}
    (hc : isSpace c = true) (rest : PyStr) :
    scanOnce object array (c :: rest) = .error .valueError := by
  have hc' : c = 32 ∨ c = 9 ∨ c = 10 ∨ c = 13 := by simpa [isSpace] using hc
  rcases hc' with rfl | rfl | rfl | rfl <;> rfl

/-- A text that is read does not start with white space. -/
theorem Scans.skipSpace {depth : ℕ} {text : PyStr} {v : Json} (h : Scans depth text v)
    {rest : PyStr} (hrest : Ends rest) : skipSpace (text ++ rest) = text ++ rest := by
  have hscan := h rest hrest
  obtain ⟨object, array, hvalue⟩ := scanValue_eq depth
  rw [hvalue] at hscan
  cases htext : text ++ rest with
  | nil => rfl
  | cons c s =>
    rw [htext] at hscan
    cases hc : isSpace c with
    | true =>
      rw [scanOnce_space hc] at hscan
      exact nomatch hscan
    | false => rw [Json.skipSpace, List.dropWhile_cons, hc]; rfl

theorem ends_cons {c : ℕ} (hc : isDigit c = false ∧ c ≠ '.'.toNat ∧ c ≠ 'e'.toNat ∧ c ≠ 'E'.toNat)
    (rest : PyStr) : Ends (c :: rest) := by
  intro d hd
  obtain rfl := Option.some.inj hd
  exact hc

theorem setItem_new {members : List (PyStr × Json)} {key : PyStr}
    (h : key ∉ members.map Prod.fst) (v : Json) :
    setItem members key v = members ++ [(key, v)] := by
  rw [setItem, if_neg (by simpa using h)]

/-- A key, a colon and a value are read off the front. -/
theorem scanMembers_one {depth fuel : ℕ} {members : List (PyStr × Json)} {key : PyStr} {v : Json}
    (hkey : ∀ c ∈ key, Plain c) (hv : Scans depth (dumps v) v)
    (hnew : key ∉ members.map Prod.fst) {c : ℕ} (hspace : isSpace c = false)
    {rest : PyStr} (hends : Ends (c :: rest)) :
    scanMembers (scanValue depth) (fuel + 1) members
        (dumpString key ++ pyStr ": " ++ dumps v ++ c :: rest)
      = if c = '}'.toNat then .ok (.obj (members ++ [(key, v)]), rest)
        else if c = ','.toNat then
          scanMembers (scanValue depth) fuel (members ++ [(key, v)]) (skipSpace rest)
        else .error .valueError := by
  have hcolon : pyStr ": " = [':'.toNat, ' '.toNat] := rfl
  obtain ⟨text, htext, hscan⟩ := scanString_dump hkey
    (':'.toNat :: ' '.toNat :: (dumps v ++ c :: rest))
  have hshape : dumpString key ++ pyStr ": " ++ dumps v ++ c :: rest = '"'.toNat :: text := by
    rw [← htext, hcolon]
    simp only [List.append_assoc, List.cons_append, List.nil_append]
  have h1 : skipSpace (':'.toNat :: ' '.toNat :: (dumps v ++ c :: rest))
      = ':'.toNat :: ' '.toNat :: (dumps v ++ c :: rest) := rfl
  have h2 : skipSpace (' '.toNat :: (dumps v ++ c :: rest)) = dumps v ++ c :: rest := by
    show skipSpace (dumps v ++ c :: rest) = _
    exact hv.skipSpace hends
  have h3 : skipSpace (c :: rest) = c :: rest := by
    rw [skipSpace, List.dropWhile_cons, hspace]
    rfl
  rw [hshape, scanMembers, if_pos rfl, hscan, ok_bind]
  simp only [h1, if_true, h2, hv _ hends, ok_bind, h3, setItem_new hnew]

theorem dumpMembers_cons (key : PyStr) (v : Json) (members : List (PyStr × Json)) :
    ∃ text, dumpMembers ((key, v) :: members) = '"'.toNat :: text := by
  cases members <;> exact ⟨_, by simp only [dumpMembers, dumpString]; rfl⟩

theorem scanMembers_dump {depth fuel : ℕ} (done : List (PyStr × Json))
    {members : List (PyStr × Json)} (hne : members ≠ [])
    (hmembers : ∀ m ∈ members, (∀ c ∈ m.1, Plain c) ∧ Scans depth (dumps m.2) m.2)
    (hnodup : ((done ++ members).map Prod.fst).Nodup) (hfuel : members.length ≤ fuel)
    (rest : PyStr) :
    scanMembers (scanValue depth) fuel done (dumpMembers members ++ '}'.toNat :: rest)
      = .ok (.obj (done ++ members), rest) := by
  induction members generalizing done fuel with
  | nil => exact absurd rfl hne
  | cons m members ih =>
    obtain ⟨key, v⟩ := m
    obtain ⟨⟨hkey, hv⟩, hrest⟩ := List.forall_mem_cons.mp hmembers
    obtain ⟨fuel, rfl⟩ := Nat.exists_eq_succ_of_ne_zero
      (show fuel ≠ 0 by rw [List.length_cons] at hfuel; omega)
    have hnew : key ∉ done.map Prod.fst := by
      rw [List.map_append, List.nodup_append] at hnodup
      exact fun h => hnodup.2.2 key h key List.mem_cons_self rfl
    cases members with
    | nil =>
      rw [dumpMembers, scanMembers_one hkey hv hnew rfl (ends_cons (by decide) rest), if_pos rfl]
    | cons m members =>
      obtain ⟨text, htext⟩ := dumpMembers_cons m.1 m.2 members
      have hcomma : pyStr ", " = [','.toNat, ' '.toNat] := rfl
      have hshape : dumpMembers ((key, v) :: m :: members) ++ '}'.toNat :: rest
          = dumpString key ++ pyStr ": " ++ dumps v ++ ','.toNat :: ' '.toNat ::
            (dumpMembers (m :: members) ++ '}'.toNat :: rest) := by
        rw [dumpMembers, hcomma]
        simp only [List.append_assoc, List.cons_append, List.nil_append]
      have hskip : skipSpace (' '.toNat :: (dumpMembers (m :: members) ++ '}'.toNat :: rest))
          = dumpMembers (m :: members) ++ '}'.toNat :: rest := by
        rw [htext]
        rfl
      rw [hshape, scanMembers_one hkey hv hnew rfl (ends_cons (by decide) _),
        if_neg (by decide), if_pos rfl, hskip,
        ih _ (List.cons_ne_nil _ _) hrest (by simpa using hnodup)
          (by rw [List.length_cons] at hfuel; omega), List.append_assoc]
      rfl

theorem length_le_dumpMembers (members : List (PyStr × Json)) :
    members.length ≤ (dumpMembers members).length + 1 := by
  induction members with
  | nil => exact Nat.zero_le _
  | cons m members ih =>
    cases members with
    | nil => simp
    | cons m' members =>
      rw [dumpMembers]
      simp only [List.length_append, List.length_cons] at ih ⊢
      have : (pyStr ", ").length = 2 := rfl
      omega

/-- An object with plain, different keys is read back. -/
theorem scans_obj {depth : ℕ} {members : List (PyStr × Json)} (hne : members ≠ [])
    (hmembers : ∀ m ∈ members, (∀ c ∈ m.1, Plain c) ∧ Scans depth (dumps m.2) m.2)
    (hnodup : (members.map Prod.fst).Nodup) :
    Scans (depth + 1) (dumps (.obj members)) (.obj members) := by
  intro rest _
  have hshape : dumps (.obj members) ++ rest
      = '{'.toNat :: (dumpMembers members ++ '}'.toNat :: rest) := by
    rw [dumps]
    simp only [List.append_assoc]
    rfl
  obtain ⟨text, htext⟩ : ∃ text, dumpMembers members = '"'.toNat :: text := by
    obtain ⟨⟨key, v⟩, members, rfl⟩ := List.exists_cons_of_ne_nil hne
    exact dumpMembers_cons key v members
  have hskip : skipSpace (dumpMembers members ++ '}'.toNat :: rest)
      = '"'.toNat :: (text ++ '}'.toNat :: rest) := by
    rw [htext]
    rfl
  rw [hshape, scanValue, scanOnce, if_neg (by decide), if_pos rfl, scanObject, hskip]
  dsimp only
  rw [if_neg (by decide), ← List.cons_append, ← htext,
    scanMembers_dump [] hne hmembers hnodup ?_ rest]
  · rfl
  · have := length_le_dumpMembers members
    rw [List.length_append]
    simp only [List.length_cons]
    omega

/-- An object whose first member is an integer that is too long. -/
theorem scanValue_long (depth : ℕ) {n : ℕ} {key : PyStr} (hkey : ∀ c ∈ key, Plain c)
    (hn : (decimal n).length > maxDigits) {rest : PyStr} (hrest : Ends rest) :
    scanValue (depth + 1) ('{'.toNat :: (dumpString key ++ pyStr ": " ++ (decimal n ++ rest)))
      = .error .valueError := by
  have hcolon : pyStr ": " = [':'.toNat, ' '.toNat] := rfl
  obtain ⟨text, htext, hscan⟩ := scanString_dump hkey
    (':'.toNat :: ' '.toNat :: (decimal n ++ rest))
  have hshape : dumpString key ++ pyStr ": " ++ (decimal n ++ rest) = '"'.toNat :: text := by
    rw [← htext, hcolon]
    simp only [List.append_assoc, List.cons_append, List.nil_append]
  have hskip : skipSpace ('"'.toNat :: text) = '"'.toNat :: text := rfl
  have hskip' : skipSpace (' '.toNat :: (decimal n ++ rest)) = decimal n ++ rest := by
    obtain ⟨c, s, hcs, hc⟩ := decimal_head n
    have hspace : isSpace c = false := by
      have hc' : 48 ≤ c ∧ c ≤ 57 := by simpa [isDigit] using hc
      simp [isSpace]
      omega
    show skipSpace (decimal n ++ rest) = _
    rw [hcs, List.cons_append, skipSpace, List.dropWhile_cons, hspace]
    rfl
  rw [hshape, scanValue, scanOnce, if_neg (by decide), if_pos rfl, scanObject, hskip]
  dsimp only
  rw [if_neg (by decide), scanMembers, if_pos rfl, hscan, ok_bind]
  have h1 : skipSpace (':'.toNat :: ' '.toNat :: (decimal n ++ rest))
      = ':'.toNat :: ' '.toNat :: (decimal n ++ rest) := rfl
  simp only [h1, if_true, hskip', scanValue_decimal depth n hrest, if_pos hn, error_bind]

/-! ### Lines -/

theorem scanOnce_bom (object array : PyStr → Except PyError (Json × PyStr)) (rest : PyStr) :
    scanOnce object array (0xFEFF :: rest) = .error .valueError := by
  simp [scanOnce, isDigit]

/-- A text that is read loads as its value; nothing but white space may follow it. -/
theorem loads_of_scans {depth : ℕ} {text rest : PyStr} {v w : Json} (h : Scans depth text v)
    (hends : Ends rest) :
    loads depth (text ++ rest) = .ok w ↔ w = v ∧ Json.skipSpace rest = [] := by
  have hbom : (text ++ rest).head? ≠ some 0xFEFF := by
    intro hhead
    obtain ⟨s, hs⟩ := List.head?_eq_some_iff.mp hhead
    obtain ⟨object, array, hvalue⟩ := scanValue_eq depth
    have hscan := h rest hends
    rw [hs, hvalue, scanOnce_bom] at hscan
    exact nomatch hscan
  rw [loads, if_neg hbom, h.skipSpace hends, h rest hends, ok_bind]
  dsimp only
  split
  · rename_i hr
    simp [hr, eq_comm, pure, Except.pure]
  · rename_i hr
    simp [hr]

/-- A leading newline does not matter. -/
theorem loads_newline (depth : ℕ) {s : PyStr} (h : s.head? ≠ some 0xFEFF) :
    loads depth ('\n'.toNat :: s) = loads depth s := by
  have hskip : Json.skipSpace ('\n'.toNat :: s) = Json.skipSpace s := rfl
  rw [loads, loads, if_neg (by simp), if_neg h, hskip]

end Json
